import ObjectLang.Proofs.Annotations
import ObjectLang.Proofs.Sites

/-!
# Programs without naming errors

Name resolution reports nothing exactly if a program is well scoped
(`Program.nameErrors_nil_iff_wellScoped`).  What that means is said of the tree alone
(`Program.WellScoped`): names are declared once in their scope, classes fit in with those that they
extend, types mention classes that are known, and names are used where they are declared.
-/

namespace ObjectLang

/-! ### Well-scoped programs -/

/-- A name is used at a site where it is declared; a method of an object is one of its class. -/
def Located.Visible (x : Located) : Prop :=
  match x.note with
  | .ident _ name _ | .call _ name _ => ∃ scope ∈ x.site.scopes, ∃ d ∈ scope, d.name = name
  | .send _ receiver method _ => ∃ index d cls m, x.site.find? receiver = some (index, d) ∧
      d.ty? = some (.ref cls) ∧ latest? (membersOf x.site.classes cls) method = some m ∧
      m.isMethod = true
  | .new _ cls _ => cls ∈ x.site.classes.map (·.name)
  | _ => True

/-- The names declared in the scope of a routine. -/
def Routine.localNames (f : Routine) : List String :=
  f.params.map (·.name) ++ f.decls.map (·.declaration.name)

mutual

/-- The functions in a declaration, at any depth. -/
def Decl.routines : Decl → List Routine
  | .var _ => []
  | .fn f => f.routines

/-- A routine and the functions inside it. -/
def Routine.routines : Routine → List Routine
  | ⟨name, params, ret, decls, body, line, offset⟩ =>
    ⟨name, params, ret, decls, body, line, offset⟩ :: Decl.routinesAll decls

/-- The functions in several declarations. -/
def Decl.routinesAll : List Decl → List Routine
  | [] => []
  | d :: ds => d.routines ++ Decl.routinesAll ds

end

/-- The functions and methods of a program. -/
def Program.routines (p : Program) : List Routine :=
  (p.classes.flatMap fun c => c.methods.flatMap Routine.routines) ++ Decl.routinesAll p.decls

/-- All classes that the types mention, at any depth, are among the given ones. -/
def TypesMention (classes : List String) (types : List Ty) : Prop :=
  ∀ ty ∈ types, ∀ cls ∈ ty.classes, cls ∈ classes

/-- A class fits in with the classes before it, listed from the last one on. -/
structure ClassDecl.WellScoped (before : List ClassDecl) (c : ClassDecl) : Prop where
  superclass : ∀ cls, c.superclass = some cls → cls ∈ before.map (·.name)
  /-- No member is declared twice. -/
  members : (c.fields.map (·.name) ++ c.methods.map (·.name)).Nodup
  /-- No field has the name of an inherited method. -/
  fields : ∀ f ∈ c.fields, ∀ m, latest? (c.inheritedMembers before) f.name = some m →
    m.isMethod = false
  /-- A method that has the name of an inherited member has that of a method. -/
  methods : ∀ f ∈ c.methods, ∀ m, latest? (c.inheritedMembers before) f.name = some m →
    m.isMethod = true
  types : TypesMention (c.name :: before.map (·.name)) c.annotations

/-- Names are declared once and before they are used. -/
structure Program.WellScoped (p : Program) : Prop where
  /-- Classes and outermost declarations have different names. -/
  outermost : (p.classes.map (·.name) ++ p.decls.map (·.declaration.name)).Nodup
  /-- So have the parameters and local declarations of each routine. -/
  locals : ∀ f ∈ p.routines, f.localNames.Nodup
  classes : ∀ before c after, p.classes = before ++ c :: after → c.WellScoped before.reverse
  types : TypesMention (p.classes.map (·.name)) (Decl.annotationsAll p.decls)
  uses : ∀ x ∈ p.located, x.Visible

/-! ### Names in the innermost scope -/

/-- The names declared in the innermost scope. -/
def Site.innermost (site : Site) : List String := (site.scopes.headD []).map Declaration.name

theorem Site.innermost_declare {site : Site} (h : site.scopes ≠ []) (d : Declaration) :
    (site.declare d).innermost = d.name :: site.innermost := by
  obtain ⟨_ | ⟨scope, outer⟩, classes⟩ := site
  · exact absurd rfl h
  · rfl

theorem Site.innermost_declareClass {site : Site} (h : site.scopes ≠ []) (c : ClassDecl) :
    (site.declareClass c).innermost = c.name :: site.innermost :=
  Site.innermost_declare h (.cls c)

theorem Site.innermost_declareClasses {site : Site} (h : site.scopes ≠ []) (cs : List ClassDecl) :
    (site.declareClasses cs).innermost = (cs.map (·.name)).reverse ++ site.innermost := by
  induction cs generalizing site with
  | nil => rfl
  | cons c cs ih =>
    have hnext : (site.declareClass c).scopes ≠ [] := by
      rwa [← List.length_pos_iff, Site.length_scopes_declareClass, List.length_pos_iff]
    rw [List.map_cons, List.reverse_cons, List.append_assoc, List.singleton_append,
      ← innermost_declareClass h, ← ih hnext]
    rfl

theorem Site.classes_declareClasses (site : Site) (cs : List ClassDecl) :
    (site.declareClasses cs).classes = cs.reverse ++ site.classes := by
  induction cs generalizing site with
  | nil => rfl
  | cons c cs ih =>
    rw [List.reverse_cons, List.append_assoc]
    exact ih (site.declareClass c)

theorem Site.innermost_enterRoutine (site : Site) (params : List TypedName) :
    (site.enterRoutine params).innermost = (params.map (·.name)).reverse := by
  simp only [innermost, enterRoutine, enter, List.headD_cons, List.map_reverse, List.map_map]
  rfl

theorem Mirrored.isSome_get? {R : Declaration → Entry → Prop} {scope : List Declaration}
    {m : NameMap Entry} (h : Mirrored R scope m) (name : String) :
    (m.get? name).isSome = true ↔ name ∈ scope.map Declaration.name := by
  have hname := h name
  generalize hd : latest? scope name = d, m.get? name = e at hname
  cases hname with
  | some hr =>
    obtain ⟨hname, newer, older, rfl, -⟩ := latest?_eq_some_iff.1 hd
    simp [← hname]
  | none =>
    have hnone := latest?_eq_none_iff.1 hd
    simpa using hnone

namespace Mirrors

variable {R : Nat → Declaration → Entry → Prop} {site : Site} {env : Env}
  (h : Mirrors R site env)
include h

theorem isSome_findInnermost? (name : String) :
    (env.scopes.findInnermost? name).isSome = true ↔ name ∈ site.innermost := by
  have hscopes := h.scopes
  have hnonempty := h.nonempty
  unfold ScopeStack.findInnermost? Site.innermost
  generalize site.scopes = scopes, env.scopes.scopes = maps at hscopes hnonempty
  cases hscopes with
  | nil => exact absurd rfl hnonempty
  | cons hscope houter => exact hscope.isSome_get? name

theorem declaredTwice_eq_nil_iff {kind : NameKind} {name : String} {line : SourceLine} :
    env.declaredTwice kind name line = [] ↔ name ∉ site.innermost := by
  rw [← h.isSome_findInnermost? name, Env.declaredTwice]
  split <;> simp_all

theorem classDeclaredTwice_eq_nil_iff (hsingle : site.scopes.length = 1) {name : String}
    {line : SourceLine} : env.classDeclaredTwice name line = [] ↔ name ∉ site.innermost := by
  have hmaps : env.scopes.scopes.length = 1 := h.scopes.length_eq ▸ hsingle
  obtain ⟨scope, hscope⟩ := List.length_eq_one_iff.1 hmaps
  -- the outermost scope is the innermost one
  have hfind : env.scopes.findOutermost? name = env.scopes.findInnermost? name := by
    rw [ScopeStack.findOutermost?, ScopeStack.findInnermost?, hscope]
    rfl
  rw [← h.isSome_findInnermost? name, Env.classDeclaredTwice, hfind]
  split <;> simp_all

theorem knowsClass_iff (cls : String) :
    env.knowsClass cls = true ↔ cls ∈ site.classes.map (·.name) := by
  simp only [Env.knowsClass, h.current, Bool.or_eq_true, h.known]
  simp

end Mirrors

/-! ### Types -/

theorem typesMention_append {classes : List String} {tys tys' : List Ty} :
    TypesMention classes (tys ++ tys') ↔ TypesMention classes tys ∧ TypesMention classes tys' :=
  List.forall_mem_append

theorem typesMention_flatMap {α : Type} {classes : List String} {f : α → List Ty} {as : List α} :
    TypesMention classes (as.flatMap f) ↔ ∀ a ∈ as, TypesMention classes (f a) :=
  List.forall_mem_flatMap

namespace Env

variable {env : Env} {classes : List String}
  (hknown : ∀ cls, env.knowsClass cls = true ↔ cls ∈ classes)
include hknown

theorem typeErrors_eq_nil_iff {ty : Ty} {line : SourceLine} :
    env.typeErrors ty line = [] ↔ ∀ cls ∈ ty.classes, cls ∈ classes := by
  simp [typeErrors, ← hknown]

theorem signatureErrors_eq_nil_iff {params : List TypedName} {ret : Ty} {line : SourceLine} :
    env.signatureErrors params ret line = [] ↔
      TypesMention classes (params.map (·.ty) ++ [ret]) := by
  simp [signatureErrors, TypesMention, typeErrors_eq_nil_iff hknown, or_imp, forall_and]

end Env

/-! ### Environments know the types of declarations -/

/-- The entry has the type of the declaration; that of a class is some shape. -/
def Declaration.HasType (_index : Nat) (d : Declaration) (e : Entry) : Prop :=
  match d.ty? with
  | some ty => e.ty = ty
  | none => ∃ s, e.ty = .shape s

namespace Declaration.HasType

variable {index : Nat} {d : Declaration} {e : Entry} (h : d.HasType index e)
include h

theorem isMethod : e.isMethod = d.isMethod := by
  unfold HasType at h
  unfold Entry.isMethod Declaration.isMethod
  split at h
  · rename_i hty
    rw [h, hty]
    rfl
  · rename_i hty
    obtain ⟨s, hs⟩ := h
    rw [hs, hty]
    rfl

theorem ref_iff (cls : String) : e.ty = .ref cls ↔ d.ty? = some (.ref cls) := by
  unfold HasType at h
  split at h
  · rename_i hty
    rw [h, hty, Option.some.injEq]
  · rename_i hty
    obtain ⟨s, hs⟩ := h
    simp [hs, hty]

end Declaration.HasType

namespace Mirrors

variable {site : Site} {env : Env}

theorem typed_withParams {scope : List Declaration} {outer : List (List Declaration)}
    {classes : List ClassDecl}
    (h : Mirrors Declaration.HasType ⟨scope :: outer, classes⟩ env) (offset : Int)
    (params : List TypedName) :
    Mirrors Declaration.HasType ⟨((params.map .param).reverse ++ scope) :: outer, classes⟩
      (env.withParams offset params) := by
  induction params generalizing scope env offset with
  | nil => exact h
  | cons p ps ih =>
    rw [List.map_cons, List.reverse_cons, List.append_assoc, List.singleton_append,
      Env.withParams]
    have hp : Declaration.HasType env.level (.param p) ⟨env.level, p.ty, offset⟩ := rfl
    exact ih (h.declare hp) (offset + 1)

theorem typed_enterRoutine (h : Mirrors Declaration.HasType site env) (params : List TypedName) :
    Mirrors Declaration.HasType (site.enterRoutine params) (env.enterRoutine params) := by
  have henter := typed_withParams (h.enter mirrored_empty) firstParam params
  rwa [List.append_nil] at henter

theorem typed_extend (h : Mirrors Declaration.HasType site env) (d : Decl) :
    Mirrors Declaration.HasType (site.declare d.declaration) (d.extend env) := by
  cases d with
  | var v =>
    have hv : Declaration.HasType env.level (.var v) (env.localEntry v.ty) := rfl
    exact h.declareLocal hv
  | fn f =>
    have hf : Declaration.HasType env.level (.fn f) (env.localEntry (.arrow f.signature)) := rfl
    exact h.declareLocal hf

theorem typed_extendAll (h : Mirrors Declaration.HasType site env) (ds : List Decl) :
    Mirrors Declaration.HasType (site.declareAll ds) (Decl.extendAll env ds) := by
  induction ds generalizing site env with
  | nil => exact h
  | cons d ds ih => exact ih (h.typed_extend d)

end Mirrors

/-! ### Uses -/

namespace Env

variable {env : Env}

theorem useErrors_eq_nil_iff {kind : NameKind} {name : String} {line : SourceLine} :
    env.useErrors kind name line = [] ↔ env.scopes.lookup name ≠ none := by
  unfold useErrors
  split <;> simp_all

theorem sendErrors_eq_nil_iff {receiver method : String} {line : SourceLine} :
    env.sendErrors receiver method line = [] ↔ ∃ e cls m, env.scopes.lookup receiver = some e ∧
      e.ty = .ref cls ∧
      ((env.classes.layout? cls).getD .empty).member? method = some m ∧ m.isMethod = true := by
  have hmethod : ∀ cls m, (env.classes.layout? cls).bind (·.method? method) = some m ↔
      ((env.classes.layout? cls).getD .empty).member? method = some m ∧ m.isMethod = true := by
    intro cls m
    cases env.classes.layout? cls with
    | none => simp [Layout.member?, Layout.empty]
    | some l => exact Option.filter_eq_some_iff
  simp only [← hmethod]
  unfold sendErrors methodBinding
  cases hlookup : env.scopes.lookup receiver with
  | none => simp
  | some e =>
    cases hty : e.ty with
    | ref cls =>
      cases hm : (env.classes.layout? cls).bind (·.method? method) <;> simp [hm, hty]
    | int | bool | null | arrow | method | shape => simp [hty]

theorem newErrors_eq_nil_iff {cls : String} {line : SourceLine} :
    env.newErrors cls line = [] ↔ env.classes.contains cls = true := by
  unfold newErrors ClassTable.entry? ClassTable.contains NameMap.contains
  cases env.classes.records.get? cls <;> simp

end Env

namespace Mirrors

variable {site : Site} {env : Env} (h : Mirrors Declaration.HasType site env)
include h

theorem lookup_ne_none_iff (name : String) :
    env.scopes.lookup name ≠ none ↔ ∃ scope ∈ site.scopes, ∃ d ∈ scope, d.name = name := by
  have hlookup : env.scopes.lookup name = none ↔ site.find? name = none := by
    have hname := h.lookup name
    generalize site.find? name = found, env.scopes.lookup name = e at hname
    cases hname <;> simp
  rw [Ne, hlookup, Site.find?_eq_none_iff]
  simp

theorem sendErrors_eq_nil_iff {receiver method : String} {line : SourceLine} :
    env.sendErrors receiver method line = [] ↔
      ∃ index d cls m, site.find? receiver = some (index, d) ∧ d.ty? = some (.ref cls) ∧
        latest? (membersOf site.classes cls) method = some m ∧ m.isMethod = true := by
  have hmember : ∀ cls,
      (∃ m, ((env.classes.layout? cls).getD .empty).member? method = some m ∧ m.isMethod = true) ↔
      ∃ m, latest? (membersOf site.classes cls) method = some m ∧ m.isMethod = true := by
    intro cls
    have hmethod := h.members cls method
    unfold Layout.member?
    generalize latest? (membersOf site.classes cls) method = m,
      ((env.classes.layout? cls).getD .empty).members.get? method = e at hmethod
    cases hmethod with
    | some hr => simp [Declaration.HasType.isMethod hr]
    | none => simp
  rw [Env.sendErrors_eq_nil_iff]
  have hreceiver := h.lookup receiver
  generalize site.find? receiver = found, env.scopes.lookup receiver = e at hreceiver
  cases hreceiver with
  | @some x e hr =>
    obtain ⟨index, d⟩ := x
    have href := Declaration.HasType.ref_iff hr
    simp only at href
    constructor
    · rintro ⟨_, cls, m, ⟨⟩, hty, hm⟩
      obtain ⟨m', hm'⟩ := (hmember cls).1 ⟨m, hm⟩
      exact ⟨index, d, cls, m', rfl, (href cls).1 hty, hm'⟩
    · rintro ⟨_, _, cls, m, ⟨⟩, hty, hm⟩
      obtain ⟨m', hm'⟩ := (hmember cls).2 ⟨m, hm⟩
      exact ⟨e, cls, m', rfl, (href cls).2 hty, hm'⟩
  | none => simp

/-- The uses of an expression are reported unless they are visible. -/
theorem exprErrors_eq_nil_iff (e : Expr) :
    e.nameErrors env = [] ↔ ∀ x ∈ e.located site, x.Visible := by
  have hnotes : e.nameErrors env = [] ↔ ∀ n ∈ e.notes, Located.Visible ⟨site, n⟩ := by
    induction e using Expr.ind with
    | int | bool | null => simp [Expr.nameErrors, Expr.notes]
    | arith line op l r hl hr | compare line op l r hl hr | logic line op l r hl hr =>
      rw [Expr.nameErrors, Expr.notes, List.append_eq_nil_iff, List.forall_mem_append, hl, hr]
    | not line e he | print line e he => rw [Expr.nameErrors, Expr.notes, he]
    | cond line c t f hc ht hf =>
      simp only [Expr.nameErrors, Expr.notes, List.append_eq_nil_iff, List.forall_mem_append, hc,
        ht, hf]
    | ident line name b =>
      rw [Expr.nameErrors, Expr.notes, List.forall_mem_singleton, Env.useErrors_eq_nil_iff]
      exact h.lookup_ne_none_iff name
    | call line name args b hargs =>
      rw [Expr.nameErrors, Expr.notes, List.append_eq_nil_iff, List.forall_mem_cons,
        Env.useErrors_eq_nil_iff, Expr.nameErrorsAll_eq_flatMap, Expr.notesAll_eq_flatMap,
        List.flatMap_eq_nil_iff, List.forall_mem_flatMap]
      exact and_congr (h.lookup_ne_none_iff name) (forall₂_congr hargs)
    | send line receiver method args b hargs =>
      rw [Expr.nameErrors, Expr.notes, List.append_eq_nil_iff, List.forall_mem_cons,
        Expr.nameErrorsAll_eq_flatMap, Expr.notesAll_eq_flatMap, List.flatMap_eq_nil_iff,
        List.forall_mem_flatMap]
      exact and_congr h.sendErrors_eq_nil_iff (forall₂_congr hargs)
    | new line cls args entry hargs =>
      rw [Expr.nameErrors, Expr.notes, List.append_eq_nil_iff, List.forall_mem_cons,
        Env.newErrors_eq_nil_iff, Expr.nameErrorsAll_eq_flatMap, Expr.notesAll_eq_flatMap,
        List.flatMap_eq_nil_iff, List.forall_mem_flatMap]
      exact and_congr (h.known cls) (forall₂_congr hargs)
  rw [hnotes, Expr.located, List.forall_mem_map]

end Mirrors

/-! ### Declarations -/

/-- What is asked of the routines, types and notes of a part of a tree. -/
structure WellScopedPart (classes : List String) (routines : List Routine) (types : List Ty)
    (notes : List Located) : Prop where
  locals : ∀ f ∈ routines, f.localNames.Nodup
  types : TypesMention classes types
  uses : ∀ x ∈ notes, x.Visible

theorem wellScopedPart_append {classes : List String} {routines routines' : List Routine}
    {types types' : List Ty} {notes notes' : List Located} :
    WellScopedPart classes (routines ++ routines') (types ++ types') (notes ++ notes') ↔
      WellScopedPart classes routines types notes ∧
        WellScopedPart classes routines' types' notes' := by
  constructor
  · rintro ⟨hlocals, htypes, huses⟩
    rw [List.forall_mem_append] at hlocals huses
    rw [typesMention_append] at htypes
    exact ⟨⟨hlocals.1, htypes.1, huses.1⟩, hlocals.2, htypes.2, huses.2⟩
  · rintro ⟨⟨hlocals, htypes, huses⟩, hlocals', htypes', huses'⟩
    exact ⟨List.forall_mem_append.2 ⟨hlocals, hlocals'⟩, typesMention_append.2 ⟨htypes, htypes'⟩,
      List.forall_mem_append.2 ⟨huses, huses'⟩⟩

namespace Mirrors

variable {site : Site} {env : Env}

theorem paramErrors_eq_nil_iff (h : Mirrors Declaration.HasType site env) (line : SourceLine)
    (offset : Int) (params : List TypedName) :
    env.paramErrors line offset params = [] ↔ Fresh (params.map (·.name)) site.innermost := by
  induction params generalizing site env offset with
  | nil => simp [Env.paramErrors, fresh_nil_left]
  | cons p ps ih =>
    have hp : Declaration.HasType env.level (.param p) ⟨env.level, p.ty, offset⟩ := rfl
    have hps := ih (h.declare hp) (offset + 1)
    rw [Site.innermost_declare h.nonempty] at hps
    rw [Env.paramErrors, List.append_eq_nil_iff, h.declaredTwice_eq_nil_iff, List.map_cons,
      fresh_cons]
    exact and_congr_right' hps

end Mirrors

/-- Wherever the declaration stands, its errors are that its name is taken or that what is inside it
is not well scoped. -/
def Decl.ErrorsSpecified (d : Decl) : Prop :=
  ∀ site env, Mirrors Declaration.HasType site env →
    (d.nameErrors env = [] ↔ d.declaration.name ∉ site.innermost ∧
      WellScopedPart (site.classes.map (·.name)) d.routines d.annotations (d.located site))

theorem Decl.nameErrorsAll_eq_nil_iff {ds : List Decl} (hs : ∀ d ∈ ds, d.ErrorsSpecified)
    {site : Site} {env : Env} (h : Mirrors Declaration.HasType site env) :
    Decl.nameErrorsAll env ds = [] ↔ Fresh (ds.map (·.declaration.name)) site.innermost ∧
      WellScopedPart (site.classes.map (·.name)) (Decl.routinesAll ds) (Decl.annotationsAll ds)
        (Decl.locatedAll site ds) := by
  induction ds generalizing site env with
  | nil =>
    simp only [Decl.nameErrorsAll, List.map_nil, fresh_nil_left, true_and, true_iff]
    exact ⟨by simp [Decl.routinesAll], by simp [Decl.annotationsAll, TypesMention],
      by simp [Decl.locatedAll]⟩
  | cons d ds ih =>
    have hrest := ih (fun d hd => hs d (List.mem_cons_of_mem _ hd)) (h.typed_extend d)
    rw [Site.innermost_declare h.nonempty] at hrest
    rw [Decl.nameErrorsAll, List.append_eq_nil_iff, hs d List.mem_cons_self site env h, hrest,
      List.map_cons, fresh_cons, Decl.routinesAll, Decl.annotationsAll, Decl.locatedAll,
      wellScopedPart_append]
    exact and_and_and_comm

/-- What is wrong inside a routine; its signature is looked at elsewhere. -/
theorem Routine.innerErrors_eq_nil_iff {f : Routine} (hs : ∀ d ∈ f.decls, d.ErrorsSpecified)
    {site : Site} {env : Env} (h : Mirrors Declaration.HasType site env) :
    f.innerErrors env = [] ↔ WellScopedPart (site.classes.map (·.name)) f.routines
      (Decl.annotationsAll f.decls) (f.located site) := by
  obtain ⟨name, params, ret, decls, body, line, offset⟩ := f
  have hinner := h.typed_enterRoutine params
  have hparams := (h.enter mirrored_empty).paramErrors_eq_nil_iff line firstParam params
  have hdecls := Decl.nameErrorsAll_eq_nil_iff hs hinner
  have hbody := (hinner.typed_extendAll decls).exprErrors_eq_nil_iff body
  rw [Site.innermost_enterRoutine] at hdecls
  -- parameters and local declarations are in one scope
  have hlocals : Fresh (params.map (·.name) ++ decls.map (·.declaration.name)) [] ↔
      Fresh (params.map (·.name)) [] ∧
        Fresh (decls.map (·.declaration.name)) (params.map (·.name)).reverse :=
    fresh_append (by simp)
  rw [fresh_nil_right] at hlocals
  simp only [Routine.innerErrors, List.append_eq_nil_iff, hparams, hdecls, hbody]
  constructor
  · rintro ⟨⟨hfresh, hfresh', hpart⟩, hvisible⟩
    refine ⟨?_, hpart.types, ?_⟩
    · rw [Routine.routines, List.forall_mem_cons]
      exact ⟨hlocals.2 ⟨hfresh, hfresh'⟩, hpart.locals⟩
    · simp only [Routine.located, List.forall_mem_append]
      exact ⟨⟨by simp [Located.Visible], hpart.uses⟩, hvisible⟩
  · rintro ⟨hnodup, htypes, huses⟩
    rw [Routine.routines, List.forall_mem_cons] at hnodup
    simp only [Routine.located, List.forall_mem_append] at huses
    obtain ⟨hfresh, hfresh'⟩ := hlocals.1 hnodup.1
    exact ⟨⟨hfresh, hfresh', hnodup.2, htypes, huses.1.2⟩, huses.2⟩

theorem Routine.annotations_eq (f : Routine) :
    f.annotations = f.params.map (·.ty) ++ [f.ret] ++ Decl.annotationsAll f.decls := by
  cases f
  simp [Routine.annotations]

theorem Decl.errorsSpecified (d : Decl) : d.ErrorsSpecified := by
  induction d using Decl.ind with
  | var v =>
    intro site env h
    rw [Decl.nameErrors, List.append_eq_nil_iff, List.append_eq_nil_iff,
      Env.typeErrors_eq_nil_iff h.knowsClass_iff, h.exprErrors_eq_nil_iff,
      h.declaredTwice_eq_nil_iff]
    constructor
    · rintro ⟨⟨hty, hinit⟩, hname⟩
      refine ⟨hname, by simp [Decl.routines], ?_, ?_⟩
      · rw [Decl.annotations]
        exact List.forall_mem_singleton.2 hty
      · rw [Decl.located]
        exact List.forall_mem_cons.2 ⟨trivial, hinit⟩
    · rintro ⟨hname, -, htypes, huses⟩
      rw [Decl.annotations] at htypes
      rw [Decl.located] at huses
      exact ⟨⟨htypes v.ty List.mem_cons_self, (List.forall_mem_cons.1 huses).2⟩, hname⟩
  | fn f hf =>
    intro site env h
    -- the name of a function is declared around its inside
    have hinner := Routine.innerErrors_eq_nil_iff hf (h.typed_extend (.fn f))
    rw [Decl.nameErrors, List.append_eq_nil_iff, List.append_eq_nil_iff,
      Env.signatureErrors_eq_nil_iff h.knowsClass_iff, h.declaredTwice_eq_nil_iff, hinner]
    constructor
    · rintro ⟨⟨hsignature, hname⟩, hlocals, htypes, huses⟩
      refine ⟨hname, ?_, ?_, ?_⟩
      · rwa [Decl.routines]
      · rw [Decl.annotations, Routine.annotations_eq]
        exact typesMention_append.2 ⟨hsignature, htypes⟩
      · rw [Decl.located]
        exact List.forall_mem_cons.2 ⟨trivial, huses⟩
    · rintro ⟨hname, hlocals, htypes, huses⟩
      rw [Decl.routines] at hlocals
      rw [Decl.annotations, Routine.annotations_eq, typesMention_append] at htypes
      rw [Decl.located] at huses
      exact ⟨⟨htypes.1, hname⟩, hlocals, htypes.2, (List.forall_mem_cons.1 huses).2⟩

/-! ### Members -/

/-- A member is of a kind if its entry says so. -/
theorem Mirrored.isMethod_iff {scope : List Declaration} {m : NameMap Entry} {index : Nat}
    (h : Mirrored (Declaration.HasType index) scope m) (name : String) (kind : Bool) :
    (∀ e, m.get? name = some e → e.isMethod = kind) ↔
      ∀ d, latest? scope name = some d → d.isMethod = kind := by
  have hname := h name
  generalize latest? scope name = d, m.get? name = e at hname
  cases hname with
  | some hr => simp [Declaration.HasType.isMethod hr]
  | none => simp

/-! ### Classes -/

section Layouts

variable {l : Layout} {members : List Declaration} {level index : Nat}
  (h : Mirrored (Declaration.HasType index) members l.members)
include h

theorem Mirrored.typed_addFields (fs : List TypedName) :
    Mirrored (Declaration.HasType index) ((fs.map .field).reverse ++ members)
      (l.addFields level fs).members := by
  induction fs generalizing l members with
  | nil => exact h
  | cons f fs ih =>
    rw [List.map_cons, List.reverse_cons, List.append_assoc, List.singleton_append]
    have hf : Declaration.HasType index (.field f) (l.fieldEntry f.name f.ty level) := rfl
    exact ih (l := l.addField f.name f.ty level) (h.insert hf)

theorem Mirrored.typed_addMethods (ms : List Routine) :
    Mirrored (Declaration.HasType index) ((ms.map .method).reverse ++ members)
      (l.addMethods level ms).members := by
  induction ms generalizing l members with
  | nil => exact h
  | cons m ms ih =>
    rw [List.map_cons, List.reverse_cons, List.append_assoc, List.singleton_append]
    have hm : Declaration.HasType index (.method m) (l.methodEntry m.name m.signature level) := rfl
    exact ih (l := l.addMethod m.name m.signature level) (h.insert hm)

end Layouts

namespace Mirrors

variable {site : Site} {env : Env} (h : Mirrors Declaration.HasType site env) (c : ClassDecl)
include h

theorem typed_layout : Mirrored (Declaration.HasType 1)
    (c.ownMembers ++ c.inheritedMembers site.classes) (c.layout env).members := by
  rw [ClassDecl.ownMembers, List.append_assoc]
  exact ((h.inherited c).typed_addFields c.fields).typed_addMethods c.methods

theorem typed_declareClass (hsingle : site.scopes.length = 1) :
    Mirrors Declaration.HasType (site.declareClass c) (c.extend env) :=
  h.declareClass hsingle rfl ⟨_, rfl⟩ (h.typed_layout c)

theorem typed_enterClass (hsingle : site.scopes.length = 1) :
    Mirrors Declaration.HasType (site.enterClass c) (c.methodEnv env) :=
  h.enterClass hsingle rfl ⟨_, rfl⟩ (h.typed_layout c)

theorem superclassErrors_eq_nil_iff : c.superclassErrors env = [] ↔
    ∀ cls, c.superclass = some cls → cls ∈ site.classes.map (·.name) := by
  unfold ClassDecl.superclassErrors
  cases c.superclass with
  | none => simp
  | some cls =>
    have hknown := h.known cls
    by_cases hcls : env.classes.contains cls = true
    · simpa [hcls] using hknown
    · simpa [hcls] using hknown

/-- The members of a class are reported one by one, as they are added to what is inherited. -/
theorem memberErrors_eq_nil_iff : c.memberErrors env = [] ↔
    (c.fields.map (·.name) ++ c.methods.map (·.name)).Nodup ∧
      TypesMention (c.name :: site.classes.map (·.name)) (c.fields.map (·.ty)) ∧
      TypesMention (c.name :: site.classes.map (·.name))
        (c.methods.flatMap fun m => m.params.map (·.ty) ++ [m.ret]) ∧
      (∀ f ∈ c.fields, ∀ m, latest? (c.inheritedMembers site.classes) f.name = some m →
        m.isMethod = false) ∧
      ∀ f ∈ c.methods, ∀ m, latest? (c.inheritedMembers site.classes) f.name = some m →
        m.isMethod = true := by
  -- while its members are added, the class is known besides those before it
  have hknown : ∀ cls, { env with current := some c.name }.knowsClass cls = true ↔
      cls ∈ c.name :: site.classes.map (·.name) := by
    intro cls
    have hbefore := h.known cls
    simp only [Env.knowsClass, Bool.or_eq_true, beq_iff_eq, Option.some.injEq, hbefore,
      List.mem_cons]
    exact or_congr_left eq_comm
  have hkind := (h.inherited c).isMethod_iff
  -- members with different names have to fit in with what is inherited
  have hfits (hnames : (c.fields.map (·.name) ++ c.methods.map (·.name)).Nodup) :
      (c.inherited env).Fits (c.additions (ClassDecl.innerLevel env)) ↔
        (∀ f ∈ c.fields, ∀ m, latest? (c.inheritedMembers site.classes) f.name = some m →
          m.isMethod = false) ∧
        ∀ f ∈ c.methods, ∀ m, latest? (c.inheritedMembers site.classes) f.name = some m →
          m.isMethod = true := by
    rw [← c.map_name_additions (ClassDecl.innerLevel env), ← fresh_nil_right] at hnames
    rw [Layout.fits_iff_of_fresh hnames fun _ _ => rfl]
    simp only [ClassDecl.additions, List.forall_mem_append, List.forall_mem_map,
      Layout.memberKind_eq_iff, Layout.member?, hkind]
    rfl
  simp only [ClassDecl.memberErrors_eq_nil_iff, Env.typeErrors_eq_nil_iff hknown,
    Env.signatureErrors_eq_nil_iff hknown, typesMention_flatMap]
  rw [TypesMention, List.forall_mem_map]
  constructor
  · rintro ⟨htypes, htypes', hnames, hmembers⟩
    exact ⟨hnames, htypes, htypes', (hfits hnames).1 hmembers⟩
  · rintro ⟨hnames, htypes, htypes', hmembers⟩
    exact ⟨htypes, htypes', hnames, (hfits hnames).2 hmembers⟩

end Mirrors

theorem ClassDecl.typesMention_annotations {classes : List String} {c : ClassDecl} :
    TypesMention classes c.annotations ↔ TypesMention classes (c.fields.map (·.ty)) ∧
      TypesMention classes (c.methods.flatMap fun m => m.params.map (·.ty) ++ [m.ret]) ∧
      ∀ m ∈ c.methods, TypesMention classes (Decl.annotationsAll m.decls) := by
  simp only [ClassDecl.annotations, typesMention_append, typesMention_flatMap,
    Routine.annotations_eq, forall_and]

theorem ClassDecl.nameErrors_eq_nil_iff {site : Site} {env : Env}
    (h : Mirrors Declaration.HasType site env) (hsingle : site.scopes.length = 1)
    (c : ClassDecl) :
    c.nameErrors env = [] ↔ c.name ∉ site.innermost ∧ c.WellScoped site.classes ∧
      (∀ f ∈ c.methods.flatMap Routine.routines, f.localNames.Nodup) ∧
      ∀ x ∈ c.located site, x.Visible := by
  have hinner : ∀ m : Routine, m.innerErrors (c.methodEnv env) = [] ↔
      WellScopedPart (c.name :: site.classes.map (·.name)) m.routines
        (Decl.annotationsAll m.decls) (m.located (site.enterClass c)) := fun m =>
    Routine.innerErrors_eq_nil_iff (fun d _ => d.errorsSpecified) (h.typed_enterClass c hsingle)
  have hlocated : (∀ x ∈ c.located site, x.Visible) ↔
      ∀ m ∈ c.methods, ∀ x ∈ m.located (site.enterClass c), x.Visible := by
    simp only [ClassDecl.located, List.cons_append, List.forall_mem_cons, List.forall_mem_append,
      List.forall_mem_map, List.forall_mem_flatMap]
    exact ⟨fun hx m hm => (hx.2.2 m hm).2,
      fun hx => ⟨trivial, fun _ _ => trivial, fun m hm => ⟨trivial, hx m hm⟩⟩⟩
  rw [ClassDecl.nameErrors, List.append_eq_nil_iff, List.append_eq_nil_iff,
    List.append_eq_nil_iff, h.superclassErrors_eq_nil_iff, h.memberErrors_eq_nil_iff,
    h.classDeclaredTwice_eq_nil_iff hsingle, List.flatMap_eq_nil_iff, hlocated,
    List.forall_mem_flatMap]
  constructor
  · rintro ⟨⟨⟨hsuper, hmembers, htypes, htypes', hkinds, hkinds'⟩, hname⟩, hmethods⟩
    have hparts := fun m hm => (hinner m).1 (hmethods m hm)
    have hall : TypesMention (c.name :: site.classes.map (·.name)) c.annotations :=
      ClassDecl.typesMention_annotations.2 ⟨htypes, htypes', fun m hm => (hparts m hm).types⟩
    exact ⟨hname, ⟨hsuper, hmembers, hkinds, hkinds', hall⟩,
      fun m hm => (hparts m hm).locals, fun m hm => (hparts m hm).uses⟩
  · rintro ⟨hname, ⟨hsuper, hmembers, hkinds, hkinds', hall⟩, hlocals, huses⟩
    obtain ⟨htypes, htypes', hinside⟩ := ClassDecl.typesMention_annotations.1 hall
    exact ⟨⟨⟨hsuper, hmembers, htypes, htypes', hkinds, hkinds'⟩, hname⟩,
      fun m hm => (hinner m).2 ⟨hlocals m hm, hinside m hm, huses m hm⟩⟩

/-! ### Programs -/

/-- Something of each element of a list and those before it. -/
theorem forall_split_cons {α : Type} {P : List α → α → Prop} {a : α} {as : List α} :
    (∀ before b after, a :: as = before ++ b :: after → P before b) ↔
      P [] a ∧ ∀ before b after, as = before ++ b :: after → P (a :: before) b := by
  constructor
  · intro h
    exact ⟨h [] a as rfl, fun before b after has => h (a :: before) b after (by rw [has]; rfl)⟩
  · rintro ⟨hfirst, hrest⟩ before b after has
    cases before with
    | nil =>
      obtain ⟨rfl, -⟩ : a = b ∧ as = after := by simpa using has
      exact hfirst
    | cons a' before =>
      obtain ⟨rfl, hsplit⟩ : a = a' ∧ as = before ++ b :: after := by simpa using has
      exact hrest before b after hsplit

theorem ClassDecl.nameErrorsAll_eq_nil_iff {site : Site} {env : Env}
    (h : Mirrors Declaration.HasType site env) (hsingle : site.scopes.length = 1)
    (cs : List ClassDecl) :
    ClassDecl.nameErrorsAll env cs = [] ↔ Fresh (cs.map (·.name)) site.innermost ∧
      (∀ before c after, cs = before ++ c :: after →
        c.WellScoped (before.reverse ++ site.classes)) ∧
      (∀ f ∈ cs.flatMap fun c => c.methods.flatMap Routine.routines, f.localNames.Nodup) ∧
      ∀ x ∈ ClassDecl.locatedAll site cs, x.Visible := by
  induction cs generalizing site env with
  | nil => simp [ClassDecl.nameErrorsAll, fresh_nil_left, ClassDecl.locatedAll]
  | cons c cs ih =>
    have hrest := ih (h.typed_declareClass c hsingle) (by rwa [Site.length_scopes_declareClass])
    have hclasses : ∀ before : List ClassDecl,
        before.reverse ++ (site.declareClass c).classes =
          (c :: before).reverse ++ site.classes := by
      simp [Site.declareClass]
    rw [Site.innermost_declareClass h.nonempty] at hrest
    simp only [hclasses] at hrest
    rw [ClassDecl.nameErrorsAll, List.append_eq_nil_iff, c.nameErrors_eq_nil_iff h hsingle, hrest,
      List.map_cons, fresh_cons, forall_split_cons, List.flatMap_cons, List.forall_mem_append,
      ClassDecl.locatedAll, List.forall_mem_append]
    constructor
    · rintro ⟨⟨hname, hclass, hlocals, huses⟩, hfresh, hclasses, hlocals', huses'⟩
      exact ⟨⟨hname, hfresh⟩, ⟨hclass, hclasses⟩, ⟨hlocals, hlocals'⟩, huses, huses'⟩
    · rintro ⟨⟨hname, hfresh⟩, ⟨hclass, hclasses⟩, ⟨hlocals, hlocals'⟩, huses, huses'⟩
      exact ⟨⟨hname, hclass, hlocals, huses⟩, hfresh, hclasses, hlocals', huses'⟩

theorem Mirrors.typed_declareClasses {site : Site} {env : Env}
    (h : Mirrors Declaration.HasType site env) (hsingle : site.scopes.length = 1)
    (cs : List ClassDecl) :
    Mirrors Declaration.HasType (site.declareClasses cs) (ClassDecl.extendAll env cs) := by
  induction cs generalizing site env with
  | nil => exact h
  | cons c cs ih =>
    exact ih (h.typed_declareClass c hsingle) (by rwa [Site.length_scopes_declareClass])

namespace Program

/-- The outermost declarations come after all classes, in the same scope. -/
theorem outermostErrors_eq_nil_iff (p : Program) :
    Decl.nameErrorsAll (p.declEnv .empty) p.decls = [] ↔
      Fresh (p.decls.map (·.declaration.name)) (p.classes.map (·.name)) ∧
        WellScopedPart (p.classes.map (·.name)) (Decl.routinesAll p.decls)
          (Decl.annotationsAll p.decls)
          (Decl.locatedAll (Site.start.declareClasses p.classes) p.decls) := by
  have hmirrors := Mirrors.start.typed_declareClasses rfl p.classes
  have hdecls := Decl.nameErrorsAll_eq_nil_iff (fun d (_ : d ∈ p.decls) => d.errorsSpecified)
    hmirrors
  have hclasses : ∀ name, name ∈ (Site.start.declareClasses p.classes).classes.map (·.name) ↔
      name ∈ p.classes.map (·.name) := by
    intro name
    rw [Site.classes_declareClasses, List.map_append, List.map_reverse, List.mem_append,
      List.mem_reverse]
    exact or_iff_left List.not_mem_nil
  have hinnermost : ∀ name, name ∈ (Site.start.declareClasses p.classes).innermost ↔
      name ∈ p.classes.map (·.name) := by
    intro name
    rw [Site.innermost_declareClasses (List.cons_ne_nil _ _), List.mem_append, List.mem_reverse]
    exact or_iff_left List.not_mem_nil
  rw [declEnv]
  simp only [Fresh, hinnermost] at hdecls ⊢
  refine hdecls.trans (and_congr_right' ⟨fun hpart => ?_, fun hpart => ?_⟩)
  · exact ⟨hpart.locals, fun ty hty cls hcls => (hclasses cls).1 (hpart.types ty hty cls hcls),
      hpart.uses⟩
  · exact ⟨hpart.locals, fun ty hty cls hcls => (hclasses cls).2 (hpart.types ty hty cls hcls),
      hpart.uses⟩

/-- **Name resolution accepts the well-scoped programs and no others.** -/
theorem nameErrors_nil_iff_wellScoped (p : Program) : p.nameErrors = [] ↔ p.WellScoped := by
  have hclasses : ClassDecl.nameErrorsAll (Env.empty.enter .empty) p.classes = [] ↔ _ :=
    ClassDecl.nameErrorsAll_eq_nil_iff Mirrors.start rfl p.classes
  have hmain : p.main.nameErrors (p.mainEnv .empty) = [] ↔ _ :=
    ((Mirrors.start.typed_declareClasses rfl p.classes).typed_extendAll
      p.decls).exprErrors_eq_nil_iff p.main
  -- at the start there are neither classes nor names
  have hstart : Site.start.classes = [] := rfl
  have hinnermost : Site.start.innermost = [] := rfl
  simp only [hstart, hinnermost, List.append_nil] at hclasses
  have hnames : Fresh (p.classes.map (·.name) ++ p.decls.map (·.declaration.name)) [] ↔
      Fresh (p.classes.map (·.name)) [] ∧
        Fresh (p.decls.map (·.declaration.name)) (p.classes.map (·.name)) :=
    fresh_append (by simp)
  rw [fresh_nil_right] at hnames
  rw [nameErrors, nameErrorsIn, List.append_eq_nil_iff, List.append_eq_nil_iff, hclasses,
    p.outermostErrors_eq_nil_iff, hmain]
  constructor
  · rintro ⟨⟨⟨hfresh, hclass, hlocals, huses⟩, hfresh', hpart⟩, hvisible⟩
    refine ⟨hnames.2 ⟨hfresh, hfresh'⟩, ?_, hclass, hpart.types, ?_⟩
    · exact List.forall_mem_append.2 ⟨hlocals, hpart.locals⟩
    · simp only [Program.located, List.forall_mem_append]
      exact ⟨⟨huses, hpart.uses⟩, hvisible⟩
  · rintro ⟨hnodup, hlocals, hclass, htypes, huses⟩
    obtain ⟨hfresh, hfresh'⟩ := hnames.1 hnodup
    obtain ⟨hlocals, hlocals'⟩ := List.forall_mem_append.1 hlocals
    simp only [Program.located, List.forall_mem_append] at huses
    exact ⟨⟨⟨hfresh, hclass, hlocals, huses.1.1⟩, hfresh', hlocals', htypes, huses.1.2⟩, huses.2⟩

end Program

end ObjectLang
