import ObjectLang.Proofs.Resolution
import ObjectLang.Proofs.WellScoped
import Mathlib.Data.List.Basic

/-!
# What a pass leaves behind

One state serves for a whole session.  What a part of a tree does to it is its own declaration at
most: an expression or the inside of a routine leaves the environment as it was, a variable or a
function adds its binding to the innermost scope and takes one place, and errors are only ever added
(`Resolution.Restores`, `Resolution.Declares`, `Resolution.MakesKnown`).

So nothing but classes and errors is left of a program (`Env.Closed`), and a program that mentions
no class is resolved as if it were the first one: `Session.resolution_restores`.
-/

namespace ObjectLang

open Resolution

/-! ### Parts of a tree -/

namespace Resolution

variable {α : Type}

/-- The part of a pass leaves the environment as it was; errors are only added. -/
structure Restores (part : Resolution α) (s : Session) : Prop where
  env : (part s).2.env = s.env
  errors : s.errors <+: (part s).2.errors

/-- The part of a pass adds one binding to the innermost scope and takes one place; errors are only
added. -/
structure Declares (part : Resolution α) (name : String) (ty : Ty) (s : Session) : Prop where
  env : ∀ scope outer, s.env.scopes.scopes = scope :: outer →
    (part s).2.env = { s.env with
      scopes := ⟨scope.insert name (s.env.localEntry ty) :: outer⟩
      nextLocal := s.env.nextLocal - 1 }
  errors : s.errors <+: (part s).2.errors

/-- The part of a pass adds one binding to the outermost scope, takes one place and makes a class
known; errors are only added. -/
structure MakesKnown (part : Resolution α) (name : String) (layout : Layout) (entry : Entry)
    (s : Session) : Prop where
  env : ∀ inner outermost, s.env.scopes.scopes = inner ++ [outermost] →
    (part s).2.env =
      { scopes := ⟨inner ++ [outermost.insert name entry]⟩
        classes := s.env.classes.insert name layout entry
        nextLocal := s.env.nextLocal - 1
        current := none }
  errors : s.errors <+: (part s).2.errors

end Resolution

/-- The name that is declared. -/
def Decl.name : Decl → String
  | .var v => v.name
  | .fn f => f.name

/-- The type of what is declared. -/
def Decl.ty : Decl → Ty
  | .var v => v.ty
  | .fn f => .arrow f.signature

theorem Decl.extend_eq (env : Env) (d : Decl) : d.extend env = env.declareLocal d.name d.ty := by
  cases d <;> rfl

theorem Expr.restores (e : Expr) (s : Session) : Restores e.resolve s := by
  refine ⟨?_, ?_⟩ <;> rw [e.resolves s]
  exact List.prefix_append _ _

theorem Routine.restores (f : Routine) (s : Session) : Restores f.resolve s := by
  refine ⟨?_, ?_⟩ <;> rw [f.resolve_eq]
  exact List.prefix_append _ _

theorem Decl.declares (d : Decl) (s : Session) : Declares d.resolve d.name d.ty s := by
  refine ⟨fun scope outer hscopes => ?_, ?_⟩ <;> rw [d.resolves s]
  · simp only [Decl.extend_eq, Env.declareLocal, Env.declare, ScopeStack.declare, hscopes]
  · exact List.prefix_append _ _

theorem ClassDecl.makesKnown (c : ClassDecl) (s : Session) :
    MakesKnown c.resolve c.name (c.layout s.env) (c.ownEntry s.env) s := by
  refine ⟨fun inner outermost hscopes => ?_, ?_⟩ <;> rw [c.resolve_eq]
  · simp [ClassDecl.extend, Env.declareOutermost, ScopeStack.declareOutermost, hscopes]
  · exact List.prefix_append _ _

/-! ### Between programs -/

/-- No scope is open, no place is taken and no class is being laid out. -/
structure Env.Closed (env : Env) : Prop where
  scopes : env.scopes = .empty
  nextLocal : env.nextLocal = -2
  current : env.current = none

theorem Decl.current_extendAll (env : Env) (ds : List Decl) :
    (Decl.extendAll env ds).current = env.current := by
  induction ds generalizing env with
  | nil => rfl
  | cons d ds ih =>
    have hcurrent : (d.extend env).current = env.current := by
      rw [Decl.extend_eq, Env.declareLocal, Env.declare]
      cases env.scopes.declare d.name (env.localEntry d.ty) <;> rfl
    rw [Decl.extendAll, List.foldl_cons, ← Decl.extendAll, ih, hcurrent]

theorem ClassDecl.current_extendAll {env : Env} (h : env.current = none) (cs : List ClassDecl) :
    (ClassDecl.extendAll env cs).current = none := by
  induction cs generalizing env with
  | nil => exact h
  | cons c cs ih => exact ih rfl

theorem Env.Closed.after {env : Env} (h : env.Closed) (p : Program) : (p.after env).Closed where
  scopes := by
    -- nothing is kept of the scopes of the program, however many there are
    have hdepth : env.scopes.depth = 0 := by
      rw [h.scopes]
      rfl
    rw [Program.after, Env.leave, hdepth]
    simp [ScopeStack.keepOutermost, ScopeStack.depth, ScopeStack.empty]
  nextLocal := h.nextLocal
  current := by
    have hcurrent : (env.enter .empty).current = none := h.current
    rw [Program.after, Env.leave, Program.mainEnv, Decl.current_extendAll, Program.declEnv]
    exact ClassDecl.current_extendAll hcurrent _

/-- The session after resolving programs one after the other. -/
def Session.after (ps : List Program) : Session := ps.foldl (fun s p => (s.resolve p).2) .start

theorem Session.closed_after (ps : List Program) : (Session.after ps).env.Closed := by
  -- for the induction on the programs the session may start anywhere
  have hall : ∀ s : Session, s.env.Closed →
      (ps.foldl (fun s p => (s.resolve p).2) s).env.Closed := by
    induction ps with
    | nil => exact fun s h => h
    | cons p ps ih => exact fun s h => ih _ (h.after p)
  exact hall .start ⟨rfl, rfl, rfl⟩

/-! ### Parts that mention no class -/

/-- No object is made. -/
def NoConstruction (notes : List Note) : Prop := ∀ line cls entry, Note.new line cls entry ∉ notes

theorem noConstruction_append {notes notes' : List Note} :
    NoConstruction (notes ++ notes') ↔ NoConstruction notes ∧ NoConstruction notes' := by
  simp only [NoConstruction, List.mem_append, not_or, forall_and]

theorem NoConstruction.tail {n : Note} {notes : List Note} (h : NoConstruction (n :: notes)) :
    NoConstruction notes :=
  fun line cls entry hnew => h line cls entry (List.mem_cons_of_mem _ hnew)

theorem noConstruction_flatMap {α : Type} {xs : List α} {notes : α → List Note} :
    NoConstruction (xs.flatMap notes) ↔ ∀ x ∈ xs, NoConstruction (notes x) := by
  simp only [NoConstruction, List.mem_flatMap, not_exists, not_and]
  exact ⟨fun h x hx line cls entry => h line cls entry x hx,
    fun h line cls entry x hx => h x hx line cls entry⟩

/-- A part of a tree mentions no class, neither in a type nor to make an object. -/
structure ClassFree (types : List Ty) (notes : List Note) : Prop where
  types : ∀ ty ∈ types, ty.classes = []
  constructions : NoConstruction notes

theorem ClassFree.of_append {types types' : List Ty} {notes notes' : List Note}
    (h : ClassFree (types ++ types') (notes ++ notes')) :
    ClassFree types notes ∧ ClassFree types' notes' := by
  obtain ⟨htypes, hnotes⟩ := h
  rw [List.forall_mem_append] at htypes
  rw [noConstruction_append] at hnotes
  exact ⟨⟨htypes.1, hnotes.1⟩, ⟨htypes.2, hnotes.2⟩⟩

/-- The program has no classes and mentions none. -/
structure Program.MentionsNoClass (p : Program) : Prop where
  classes : p.classes = []
  free : ClassFree p.annotations p.notes

theorem Ty.ne_ref_of_classes {ty : Ty} (h : ty.classes = []) (cls : String) : ty ≠ .ref cls := by
  rintro rfl
  cases h

/-! ### Environments with other classes -/

namespace Env

/-- The environment with other classes. -/
def withClasses (env : Env) (classes : ClassTable) : Env := { env with classes }

section

variable (env : Env) (t : ClassTable)

theorem declare_withClasses (name : String) (entry : Entry) :
    (env.withClasses t).declare name entry = (env.declare name entry).withClasses t := by
  unfold declare
  cases h : env.scopes.declare name entry <;> simp [withClasses, h]

theorem withParams_withClasses (offset : Int) (params : List TypedName) :
    (env.withClasses t).withParams offset params =
      (env.withParams offset params).withClasses t := by
  induction params generalizing env offset with
  | nil => rfl
  | cons p ps ih =>
    rw [withParams, declare_withClasses, ih]
    rfl

theorem enterRoutine_withClasses (params : List TypedName) :
    (env.withClasses t).enterRoutine params = (env.enterRoutine params).withClasses t :=
  (env.enter .empty).withParams_withClasses t firstParam params

theorem extend_withClasses (d : Decl) :
    d.extend (env.withClasses t) = (d.extend env).withClasses t := by
  have hentry : (env.withClasses t).localEntry d.ty = env.localEntry d.ty := rfl
  rw [Decl.extend_eq, Decl.extend_eq, declareLocal, hentry, declare_withClasses]
  rfl

theorem extendAll_withClasses (ds : List Decl) :
    Decl.extendAll (env.withClasses t) ds = (Decl.extendAll env ds).withClasses t := by
  induction ds generalizing env with
  | nil => rfl
  | cons d ds ih =>
    rw [Decl.extendAll, List.foldl_cons, extend_withClasses]
    exact ih _

theorem paramErrors_withClasses (line : SourceLine) (offset : Int) (params : List TypedName) :
    (env.withClasses t).paramErrors line offset params = env.paramErrors line offset params := by
  induction params generalizing env offset with
  | nil => rfl
  | cons p ps ih =>
    rw [paramErrors, declare_withClasses, ih]
    rfl

theorem typeErrors_of_classes {ty : Ty} (h : ty.classes = []) (line : SourceLine) :
    env.typeErrors ty line = [] := by
  rw [typeErrors, h]
  rfl

theorem signatureErrors_of_classes {params : List TypedName} {ret : Ty}
    (hparams : ∀ ty ∈ params.map (·.ty), ty.classes = []) (hret : ret.classes = [])
    (line : SourceLine) : env.signatureErrors params ret line = [] := by
  rw [signatureErrors, env.typeErrors_of_classes hret, List.append_nil, List.flatMap_eq_nil_iff]
  exact fun p hp => env.typeErrors_of_classes (hparams _ (List.mem_map_of_mem hp)) _

end

variable {env : Env}

/-- There are scopes, and no name in them stands for an object. -/
structure NoObjects (env : Env) : Prop where
  opened : env.Opened
  ty_ne : ∀ {name entry}, env.scopes.lookup name = some entry → ∀ cls, entry.ty ≠ .ref cls

namespace NoObjects

theorem declare (h : env.NoObjects) (name : String) {entry : Entry}
    (hty : ∀ cls, entry.ty ≠ .ref cls) : (env.declare name entry).NoObjects where
  opened := opened_declare.2 h.opened
  ty_ne {other found} hfound := by
    rw [lookup_declare h.opened] at hfound
    split at hfound
    · cases hfound
      exact hty
    · exact h.ty_ne hfound

theorem withParams (h : env.NoObjects) (offset : Int) {params : List TypedName}
    (hparams : ∀ ty ∈ params.map (·.ty), ty.classes = []) :
    (env.withParams offset params).NoObjects := by
  induction params generalizing env offset with
  | nil => exact h
  | cons p ps ih =>
    rw [List.map_cons, List.forall_mem_cons] at hparams
    exact ih (h.declare p.name (Ty.ne_ref_of_classes hparams.1)) _ hparams.2

theorem enterRoutine (h : env.NoObjects) {params : List TypedName}
    (hparams : ∀ ty ∈ params.map (·.ty), ty.classes = []) :
    (env.enterRoutine params).NoObjects := by
  have hempty : (env.enter .empty).NoObjects :=
    ⟨opened_enter _, fun hfound => h.ty_ne (lookup_enter_empty ▸ hfound)⟩
  exact hempty.withParams _ hparams

theorem extend (h : env.NoObjects) {d : Decl} (htypes : ∀ ty ∈ d.annotations, ty.classes = []) :
    (d.extend env).NoObjects := by
  -- a function is not an object, whatever its signature mentions
  have hty : ∀ cls, d.ty ≠ .ref cls := by
    cases d with
    | var v => exact Ty.ne_ref_of_classes (htypes v.ty (List.mem_singleton_self _))
    | fn f => exact fun cls hcls => Ty.noConfusion hcls
  have hdeclared : (env.declare d.name (env.localEntry d.ty)).NoObjects := h.declare d.name hty
  rw [Decl.extend_eq]
  exact ⟨hdeclared.opened, hdeclared.ty_ne⟩

theorem extendAll (h : env.NoObjects) {ds : List Decl}
    (htypes : ∀ ty ∈ Decl.annotationsAll ds, ty.classes = []) :
    (Decl.extendAll env ds).NoObjects := by
  induction ds generalizing env with
  | nil => exact h
  | cons d ds ih =>
    rw [Decl.annotationsAll, List.forall_mem_append] at htypes
    exact ih (h.extend htypes.1) htypes.2

/-- A method call is only looked up in the classes if its receiver stands for an object. -/
theorem methodBinding_withClasses (h : env.NoObjects) (t : ClassTable) (receiver method : String) :
    (env.withClasses t).methodBinding receiver method = env.methodBinding receiver method := by
  have hscopes : (env.withClasses t).scopes = env.scopes := rfl
  unfold Env.methodBinding
  rw [hscopes]
  cases he : env.scopes.lookup receiver with
  | none => rfl
  | some entry =>
    have hne := h.ty_ne he
    cases hty : entry.ty with
    | ref cls => exact absurd hty (hne cls)
    | _ => simp only [hty]

end NoObjects

end Env

/-! ### Resolution with other classes -/

/-- A part of a tree is bound, and adds errors, in the same way whatever classes are known. -/
def Env.IgnoresClasses {α : Type} (env : Env) (bind : Env → α) (errors : Env → List NameError) :
    Prop :=
  ∀ t, bind (env.withClasses t) = bind env ∧ errors (env.withClasses t) = errors env

theorem Expr.all_ignoreClasses {env : Env} {es : List Expr}
    (hes : ∀ e ∈ es, NoConstruction e.notes →
      env.IgnoresClasses (Expr.bind · e) (Expr.nameErrors · e))
    (hnew : NoConstruction (Expr.notesAll es)) :
    env.IgnoresClasses (Expr.bindAll · es) (Expr.nameErrorsAll · es) := by
  rw [notesAll_eq_flatMap, noConstruction_flatMap] at hnew
  intro t
  simp only [bindAll_eq_map, nameErrorsAll_eq_flatMap]
  exact ⟨List.map_congr_left fun e he => (hes e he (hnew e he) t).1,
    List.flatMap_congr fun e he => (hes e he (hnew e he) t).2⟩

theorem Expr.ignoresClasses {env : Env} (h : env.NoObjects) {e : Expr}
    (he : NoConstruction e.notes) : env.IgnoresClasses (Expr.bind · e) (Expr.nameErrors · e) := by
  induction e using Expr.ind with
  | int | bool | null => exact fun t => ⟨rfl, rfl⟩
  | arith line op l r hl hr | compare line op l r hl hr | logic line op l r hl hr =>
    rw [notes, noConstruction_append] at he
    intro t
    simp only [bind, nameErrors, hl he.1 t, hr he.2 t, and_self]
  | not line e ih | print line e ih =>
    rw [notes] at he
    intro t
    simp only [bind, nameErrors, ih he t, and_self]
  | cond line c t f hc ht hf =>
    rw [notes, noConstruction_append, noConstruction_append] at he
    intro classes
    simp only [bind, nameErrors, hc he.1.1 classes, ht he.1.2 classes, hf he.2 classes, and_self]
  | ident line name b => exact fun t => ⟨rfl, rfl⟩
  | call line name args b ih =>
    rw [notes] at he
    intro t
    have hargs := all_ignoreClasses ih he.tail t
    simp only [bind, nameErrors, hargs]
    exact ⟨rfl, rfl⟩
  | send line receiver method args b ih =>
    rw [notes] at he
    intro t
    have hargs := all_ignoreClasses ih he.tail t
    simp only [bind, nameErrors, hargs, Env.methodBinding?, Env.sendErrors,
      h.methodBinding_withClasses, and_self]
  | new line cls args entry =>
    rw [notes] at he
    exact absurd List.mem_cons_self (he line cls entry)

theorem Decl.all_ignoreClasses {ds : List Decl}
    (hds : ∀ d ∈ ds, ∀ {env : Env}, env.NoObjects → ClassFree d.annotations d.notes →
      env.IgnoresClasses (Decl.bind · d) (Decl.nameErrors · d))
    {env : Env} (h : env.NoObjects)
    (hfree : ClassFree (Decl.annotationsAll ds) (Decl.notesAll ds)) :
    env.IgnoresClasses (Decl.bindAll · ds) (Decl.nameErrorsAll · ds) := by
  induction ds generalizing env with
  | nil => exact fun t => ⟨rfl, rfl⟩
  | cons d ds ih =>
    rw [List.forall_mem_cons] at hds
    rw [annotationsAll, notesAll] at hfree
    obtain ⟨hfree, hlater⟩ := hfree.of_append
    intro t
    have hd := hds.1 h hfree t
    have hrest := ih hds.2 (h.extend hfree.types) hlater t
    simp only [bindAll, nameErrorsAll, Env.extend_withClasses, hd, hrest, and_self]

theorem Routine.ignoresClasses_of_decls {f : Routine}
    (hf : ∀ d ∈ f.decls, ∀ {env : Env}, env.NoObjects → ClassFree d.annotations d.notes →
      env.IgnoresClasses (Decl.bind · d) (Decl.nameErrors · d))
    {env : Env} (h : env.NoObjects) (hfree : ClassFree f.annotations f.inner) :
    env.IgnoresClasses (Routine.bindInner · f) (Routine.innerErrors · f) := by
  obtain ⟨name, params, ret, decls, body, line, offset⟩ := f
  obtain ⟨htypes, hnotes⟩ := hfree
  rw [Routine.annotations, List.forall_mem_append, List.forall_mem_cons] at htypes
  rw [Routine.inner, noConstruction_append, noConstruction_append] at hnotes
  have hinner := h.enterRoutine htypes.1
  intro t
  have hdecls := Decl.all_ignoreClasses hf hinner ⟨htypes.2.2, hnotes.1.2⟩ t
  have hbody := Expr.ignoresClasses (hinner.extendAll htypes.2.2) hnotes.2 t
  have hparams := (env.enter .empty).paramErrors_withClasses t line firstParam params
  simp only [bindInner, innerErrors, Env.enterRoutine_withClasses, Env.extendAll_withClasses,
    hdecls, hbody, true_and]
  rw [← hparams]
  rfl

theorem Decl.ignoresClasses (d : Decl) {env : Env} (h : env.NoObjects)
    (hfree : ClassFree d.annotations d.notes) :
    env.IgnoresClasses (Decl.bind · d) (Decl.nameErrors · d) := by
  induction d using Decl.ind generalizing env with
  | var v =>
    obtain ⟨htypes, hnotes⟩ := hfree
    rw [notes] at hnotes
    have hty := htypes v.ty (List.mem_singleton_self _)
    intro t
    have hinit := Expr.ignoresClasses h hnotes.tail t
    simp only [bind, nameErrors, hinit, Env.typeErrors_of_classes _ hty]
    exact ⟨rfl, rfl⟩
  | fn f ih =>
    have hafter := h.extend hfree.types
    obtain ⟨htypes, hnotes⟩ := hfree
    rw [notes] at hnotes
    rw [annotations] at htypes
    intro t
    have hinner := Routine.ignoresClasses_of_decls ih hafter ⟨htypes, hnotes.tail⟩ t
    -- the types of the signature are among those written in the function
    rw [Routine.annotations_eq, List.forall_mem_append, List.forall_mem_append] at htypes
    have hret := htypes.1.2 f.ret (List.mem_singleton_self _)
    simp only [bind, nameErrors, Env.extend_withClasses, hinner,
      Env.signatureErrors_of_classes _ htypes.1.1 hret]
    exact ⟨rfl, rfl⟩

/-! ### Programs that mention no class -/

theorem Env.noObjects_start : (Env.empty.enter .empty).NoObjects where
  opened := opened_enter _
  ty_ne hfound := by
    rw [lookup_enter_empty] at hfound
    cases hfound

/-- Between programs only the classes may differ from those of a first program. -/
theorem Env.Closed.enter_eq {env : Env} (h : env.Closed) :
    env.enter .empty = (Env.empty.enter .empty).withClasses env.classes := by
  obtain ⟨scopes, classes, nextLocal, current⟩ := env
  obtain ⟨rfl, rfl, rfl⟩ := h
  rfl

namespace Program.MentionsNoClass

variable {p : Program} {env : Env}

theorem declEnv_eq (hp : p.MentionsNoClass) (env : Env) : p.declEnv env = env.enter .empty := by
  rw [declEnv, hp.classes]
  rfl

theorem after_eq (hp : p.MentionsNoClass) (env : Env) : p.after env = env := by
  rw [after, mainEnv, hp.declEnv_eq]
  exact ((Env.Inside.enter env .empty).extendAll p.decls).leave

theorem free_decls (hp : p.MentionsNoClass) :
    ClassFree (Decl.annotationsAll p.decls) (Decl.notesAll p.decls) ∧
      NoConstruction p.main.notes := by
  obtain ⟨hclasses, htypes, hnotes⟩ := hp
  rw [annotations, hclasses] at htypes
  rw [notes, hclasses, noConstruction_append] at hnotes
  exact ⟨⟨htypes, hnotes.1⟩, hnotes.2⟩

theorem decls_eq (hp : p.MentionsNoClass) (h : env.Closed) :
    Decl.bindAll (p.declEnv env) p.decls = Decl.bindAll (p.declEnv .empty) p.decls ∧
      Decl.nameErrorsAll (p.declEnv env) p.decls =
        Decl.nameErrorsAll (p.declEnv .empty) p.decls := by
  rw [hp.declEnv_eq, hp.declEnv_eq, h.enter_eq]
  exact Decl.all_ignoreClasses (fun d _ => d.ignoresClasses) Env.noObjects_start hp.free_decls.1 _

theorem main_eq (hp : p.MentionsNoClass) (h : env.Closed) :
    p.main.bind (p.mainEnv env) = p.main.bind (p.mainEnv .empty) ∧
      p.main.nameErrors (p.mainEnv env) = p.main.nameErrors (p.mainEnv .empty) := by
  have hmain := Env.noObjects_start.extendAll hp.free_decls.1.types
  rw [mainEnv, mainEnv, hp.declEnv_eq, hp.declEnv_eq, h.enter_eq, Env.extendAll_withClasses]
  exact Expr.ignoresClasses hmain hp.free_decls.2 _

theorem bindIn_eq (hp : p.MentionsNoClass) (h : env.Closed) : p.bindIn env = p.bind := by
  have hdecls := (hp.decls_eq h).1
  have hmain := (hp.main_eq h).1
  cases p with
  | body main => exact congrArg Program.body hmain
  | letIn classes decls main =>
    obtain rfl : classes = [] := hp.classes
    exact congrArg₂ (Program.letIn []) hdecls hmain

theorem nameErrorsIn_eq (hp : p.MentionsNoClass) (h : env.Closed) :
    p.nameErrorsIn env = p.nameErrors := by
  rw [nameErrors, nameErrorsIn, nameErrorsIn, (hp.decls_eq h).2, (hp.main_eq h).2, hp.classes]
  rfl

end Program.MentionsNoClass

/-- **Whatever is resolved, the state is restored.**  After programs no scope is open, no place is
taken and no class is being laid out, and a program that mentions no class gets the notes and adds
the errors that it would as the first one.  In one pass over a tree, from any state: an expression
and the inside of a function or a method leave the environment as it was; a declaration adds its
own binding to the innermost scope and takes one place; a class does so in the outermost scope, and
becomes known.  Errors are only added. -/
theorem Session.resolution_restores (ps : List Program) :
    (Session.after ps).env.Closed ∧
    (∀ p : Program, p.MentionsNoClass →
      (Session.after ps).resolve p = ((Session.start.resolve p).1,
        ⟨(Session.after ps).env,
          (Session.after ps).errors ++ (Session.start.resolve p).2.errors⟩)) ∧
    ∀ s : Session,
      (∀ p : Program, p.resolve s = s.resolve p ∧ s.errors <+: (p.resolve s).2.errors) ∧
      (∀ e : Expr, Restores e.resolve s) ∧
      (∀ f : Routine, Restores f.resolve s) ∧
      (∀ d : Decl, Declares d.resolve d.name d.ty s) ∧
      ∀ c : ClassDecl, MakesKnown c.resolve c.name (c.layout s.env) (c.ownEntry s.env) s := by
  have hclosed := closed_after ps
  refine ⟨hclosed, fun p hp => ?_, fun s => ⟨fun p => ?_, fun e => e.restores s,
    fun f => f.restores s, fun d => d.declares s, fun c => c.makesKnown s⟩⟩
  · rw [resolve, hp.bindIn_eq hclosed, hp.nameErrorsIn_eq hclosed, hp.after_eq]
    rfl
  · rw [p.resolve_eq]
    exact ⟨rfl, List.prefix_append _ _⟩

/-- Objects of a class that is not declared and calls of a method that it would not have. -/
def Program.shelf : Program :=
  .letIn
    [{ name := "Book"
       fields := [{ name := "pages", ty := .int }]
       methods :=
        [{ name := "left", params := [{ name := "page", ty := .int }], ret := .int, decls := []
           body := .arith 1 .sub (.ident 1 "pages" none) (.ident 1 "place" none) }] }]
    [.var { name := "book", ty := .ref "Book", init := .new 2 "Novel" [.int 2 300] none }]
    (.send 3 "book" "turn" [] none)

/-- The names of `shelf` again, without classes. -/
def Program.pages : Program :=
  .letIn []
    [.var { name := "book", ty := .int, init := .int 1 300 },
     .fn { name := "left", params := [{ name := "page", ty := .int }], ret := .int
           decls := [.var { name := "pages", ty := .int, init := .ident 2 "book" none }]
           body := .arith 2 .sub (.ident 2 "pages" none) (.ident 2 "page" none) }]
    (.arith 3 .add (.call 3 "left" [.ident 3 "Book" none] none) (.send 4 "book" "left" [] none))

theorem Session.resolution_restores_pages :
    (Session.after [.shelf]).errors =
        [⟨.unknownName .var "place", 1⟩, ⟨.unknownClass "Novel", 2⟩,
          ⟨.noSuchMethod "book" "turn", 3⟩] ∧
      Program.pages.MentionsNoClass ∧
      ((Session.after [.shelf]).resolve .pages).1 = Program.pages.bind ∧
      ((Session.after [.shelf]).resolve .pages).2.errors =
        [⟨.unknownName .var "place", 1⟩, ⟨.unknownClass "Novel", 2⟩,
          ⟨.noSuchMethod "book" "turn", 3⟩, ⟨.unknownName .var "Book", 3⟩,
          ⟨.receiverNotObject "book", 4⟩] := by
  have hfree : Program.pages.MentionsNoClass := ⟨rfl, by decide, by
    simp [NoConstruction, Program.pages, Program.notes, Program.classes, Program.decls,
      Program.main, Decl.notesAll, Decl.notes, Routine.inner, Expr.notes, Expr.notesAll]⟩
  refine ⟨by decide, hfree, ?_, ?_⟩ <;> rw [(resolution_restores [.shelf]).2.1 .pages hfree]
  · rfl
  · decide

end ObjectLang
