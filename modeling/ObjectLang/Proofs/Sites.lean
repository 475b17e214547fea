import ObjectLang.Proofs.Reference
import ObjectLang.Proofs.Scopes
import ObjectLang.Tree.Notes

/-!
# What is declared around a point of a tree

Which declarations a name may refer to can be read off a tree, without offsets, levels or class
layouts: around every point there is the outermost scope, inside a class one with all of its
members, and one for each function or method around the point.  A `Site` lists these scopes with
the declarations that come before the point, and `Program.located` pairs each note of a program
with the site that it stands at.

A naming environment `Mirrors` a site if each of its scopes has, under each name, an entry that is
related to the last declaration of the name in the scope of the site.  What the relation is, is left
open; a declaration, a scope or a class is added to both sides alike, and a name is then looked up
on both sides alike (`Mirrors.lookup`).
-/

namespace ObjectLang

/-- A declaration of a name. -/
inductive Declaration where
  | cls (c : ClassDecl)
  | field (f : TypedName)
  | method (m : Routine)
  | param (p : TypedName)
  | var (v : Variable)
  | fn (f : Routine)

namespace Declaration

/-- The name that is declared. -/
def name : Declaration → String
  | cls c => c.name
  | field f | param f => f.name
  | method f | fn f => f.name
  | var v => v.name

/-- The type of what is declared; that of a class is not written in a tree. -/
def ty? : Declaration → Option Ty
  | cls _ => none
  | field f | param f => some f.ty
  | method m => some (.method m.signature)
  | var v => some v.ty
  | fn f => some (.arrow f.signature)

/-- Does it declare something with the type of a method? -/
def isMethod (d : Declaration) : Bool := d.ty?.any Ty.isMethod

/-- The entry that a declaration in the scope with the given index has according to the tree. -/
def entry? (index : Nat) : Declaration → Option Entry
  | cls c => c.entry
  | field f | param f => f.offset.map (⟨index, f.ty, ·⟩)
  | method m => m.offset.map (⟨index, .method m.signature, ·⟩)
  | var v => v.offset.map (⟨index, v.ty, ·⟩)
  | fn f => f.offset.map (⟨index, .arrow f.signature, ·⟩)

end Declaration

/-- A variable or function as a declaration. -/
def Decl.declaration : Decl → Declaration
  | .var v => .var v
  | .fn f => .fn f

/-- The last declaration of a name, among declarations listed from the last one on. -/
def latest? (scope : List Declaration) (name : String) : Option Declaration :=
  scope.find? (·.name = name)

/-- The members that a class declares by itself, the last one first. -/
def ClassDecl.ownMembers (c : ClassDecl) : List Declaration :=
  (c.methods.map Declaration.method).reverse ++ (c.fields.map Declaration.field).reverse

/-- The members of a class and its superclasses, those of the class itself first, among classes
listed from the last one on. -/
def membersOf (classes : List ClassDecl) (cls : String) : List Declaration :=
  (lineage classes cls).flatMap ClassDecl.ownMembers

/-- The members that a class inherits. -/
def ClassDecl.inheritedMembers (classes : List ClassDecl) (c : ClassDecl) : List Declaration :=
  c.superclass.elim [] (membersOf classes)

/-- What is declared around a point of a tree. -/
structure Site where
  /-- The scopes around the point, the innermost first, each with its declarations from the last
  one on. -/
  scopes : List (List Declaration)
  /-- The classes before the point, the last one first. -/
  classes : List ClassDecl

namespace Site

/-- The start of a program: the outermost scope, with nothing in it. -/
def start : Site := ⟨[[]], []⟩

variable (site : Site)

/-- Open a scope. -/
def enter (scope : List Declaration) : Site := { site with scopes := scope :: site.scopes }

/-- The point after a declaration in the innermost scope. -/
def declare (d : Declaration) : Site :=
  { site with scopes := site.scopes.modifyHead (d :: ·) }

/-- The point after several declarations. -/
def declareAll (ds : List Decl) : Site := ds.foldl (fun site d => site.declare d.declaration) site

/-- The start of a routine's local declarations: a scope with its parameters. -/
def enterRoutine (params : List TypedName) : Site :=
  site.enter (params.map Declaration.param).reverse

/-- The point after a class. -/
def declareClass (c : ClassDecl) : Site := ⟨(site.declare (.cls c)).scopes, c :: site.classes⟩

/-- The point after several classes. -/
def declareClasses (cs : List ClassDecl) : Site := cs.foldl declareClass site

/-- Inside a class: a scope with all of its members. -/
def enterClass (c : ClassDecl) : Site :=
  (site.declareClass c).enter (membersOf (c :: site.classes) c.name)

/-- The declaration that a name refers to, and the index of its scope, `0` for the outermost. -/
def find? (name : String) : Option (Nat × Declaration) := go site.scopes
where
  /-- `find?` in scopes listed from the innermost one on. -/
  go : List (List Declaration) → Option (Nat × Declaration)
    | [] => none
    | scope :: outer => ((latest? scope name).map fun d => (outer.length, d)).or (go outer)

end Site

/-! ### Notes and where they stand -/

/-- A note of a tree, at the site where it stands. -/
structure Located where
  site : Site
  note : Note

/-- The notes of an expression, which all stand at one site. -/
def Expr.located (site : Site) (e : Expr) : List Located := e.notes.map (⟨site, ·⟩)

mutual

/-- The notes of a declaration with their sites. -/
def Decl.located (site : Site) : Decl → List Located
  | .var v => ⟨site, .var v.name v.line v.offset⟩ :: v.init.located site
  | .fn f => ⟨site, .fn f.name f.signature f.line f.offset⟩ :: f.located (site.declare (.fn f))

/-- The notes inside a routine with their sites. -/
def Routine.located (site : Site) : Routine → List Located
  | ⟨_, params, _, decls, body, _, _⟩ =>
    let inner := site.enterRoutine params
    params.map (fun p => ⟨inner, .param p.name p.offset⟩) ++ Decl.locatedAll inner decls ++
      body.located (inner.declareAll decls)

/-- The notes of several declarations with their sites. -/
def Decl.locatedAll (site : Site) : List Decl → List Located
  | [] => []
  | d :: ds => d.located site ++ Decl.locatedAll (site.declare d.declaration) ds

end

namespace ClassDecl

/-- The notes of a class with their sites. -/
def located (site : Site) (c : ClassDecl) : List Located :=
  ⟨site, .cls c.name c.entry c.superEntry⟩ ::
    c.fields.map (fun f => ⟨site, .field f.name f.offset⟩) ++
    c.methods.flatMap fun m =>
      ⟨site, .method m.name m.signature m.offset⟩ :: m.located (site.enterClass c)

/-- The notes of several classes with their sites. -/
def locatedAll (site : Site) : List ClassDecl → List Located
  | [] => []
  | c :: cs => c.located site ++ locatedAll (site.declareClass c) cs

end ClassDecl

/-- The notes of a program with their sites. -/
def Program.located (p : Program) : List Located :=
  let inner := Site.start.declareClasses p.classes
  ClassDecl.locatedAll .start p.classes ++ Decl.locatedAll inner p.decls ++
    p.main.located (inner.declareAll p.decls)

theorem Expr.map_note_located (site : Site) (e : Expr) :
    (e.located site).map Located.note = e.notes := by
  rw [Expr.located, List.map_map]
  exact List.map_id _

theorem Decl.map_note_locatedAll {ds : List Decl}
    (hs : ∀ d ∈ ds, ∀ site, (d.located site).map Located.note = d.notes) (site : Site) :
    (Decl.locatedAll site ds).map Located.note = Decl.notesAll ds := by
  induction ds generalizing site with
  | nil => rfl
  | cons d ds ih =>
    rw [Decl.locatedAll, List.map_append, hs d List.mem_cons_self,
      ih fun d hd => hs d (List.mem_cons_of_mem _ hd)]
    rfl

theorem Routine.map_note_located {f : Routine}
    (hs : ∀ d ∈ f.decls, ∀ site, (d.located site).map Located.note = d.notes) (site : Site) :
    (f.located site).map Located.note = f.inner := by
  obtain ⟨name, params, ret, decls, body, line, offset⟩ := f
  simp only [Routine.located, Routine.inner, List.map_append, List.map_map,
    Expr.map_note_located, Decl.map_note_locatedAll hs]
  rfl

theorem Decl.map_note_located (d : Decl) (site : Site) :
    (d.located site).map Located.note = d.notes := by
  induction d using Decl.ind generalizing site with
  | var v => rw [Decl.located, List.map_cons, Expr.map_note_located, Decl.notes]
  | fn f hf => rw [Decl.located, List.map_cons, Routine.map_note_located hf, Decl.notes]

theorem ClassDecl.map_note_locatedAll (cs : List ClassDecl) (site : Site) :
    (ClassDecl.locatedAll site cs).map Located.note = cs.flatMap ClassDecl.notes := by
  induction cs generalizing site with
  | nil => rfl
  | cons c cs ih =>
    have hroutine : ∀ m : Routine, (m.located (site.enterClass c)).map Located.note = m.inner :=
      fun m => Routine.map_note_located (fun d _ => d.map_note_located) _
    rw [ClassDecl.locatedAll, List.map_append, ih, List.flatMap_cons]
    simp [ClassDecl.located, ClassDecl.notes, List.map_flatMap, hroutine, Function.comp_def]

/-- **Every note of a program has its site.** -/
theorem Program.map_note_located (p : Program) : p.located.map Located.note = p.notes := by
  simp only [Program.located, Program.notes, List.map_append, ClassDecl.map_note_locatedAll,
    Expr.map_note_located, Decl.map_note_locatedAll fun d _ => d.map_note_located]

/-! ### Finding declarations -/

theorem latest?_cons (d : Declaration) (scope : List Declaration) (name : String) :
    latest? (d :: scope) name = if name = d.name then some d else latest? scope name := by
  by_cases h : name = d.name
  · simp [latest?, h]
  · rw [if_neg h, latest?, List.find?_cons_of_neg (by simpa using Ne.symm h)]
    rfl

theorem latest?_eq_some_iff {scope : List Declaration} {name : String} {d : Declaration} :
    latest? scope name = some d ↔
      d.name = name ∧ ∃ newer older, scope = newer ++ d :: older ∧ ∀ e ∈ newer, e.name ≠ name := by
  simp [latest?, List.find?_eq_some_iff_append]

theorem latest?_eq_none_iff {scope : List Declaration} {name : String} :
    latest? scope name = none ↔ ∀ d ∈ scope, d.name ≠ name := by
  simp [latest?]

namespace Site

variable {site : Site} {name : String}

/-- A name refers to its last declaration in the innermost scope that has one. -/
theorem exists_of_find? {index : Nat} {d : Declaration} (h : site.find? name = some (index, d)) :
    ∃ inner newer older outer, site.scopes = inner ++ (newer ++ d :: older) :: outer ∧
      outer.length = index ∧ d.name = name ∧ (∀ e ∈ newer, e.name ≠ name) ∧
      ∀ scope ∈ inner, ∀ e ∈ scope, e.name ≠ name := by
  unfold Site.find? at h
  generalize site.scopes = scopes at h ⊢
  induction scopes with
  | nil => cases h
  | cons scope outer ih =>
    rw [find?.go] at h
    cases hd : latest? scope name with
    | some e =>
      rw [hd] at h
      cases h
      obtain ⟨hname, newer, older, rfl, hnewer⟩ := latest?_eq_some_iff.1 hd
      exact ⟨[], newer, older, outer, rfl, rfl, hname, hnewer, by simp⟩
    | none =>
      rw [hd] at h
      obtain ⟨inner, newer, older, outer', rfl, hindex, hname, hnewer, hinner⟩ := ih h
      exact ⟨scope :: inner, newer, older, outer', rfl, hindex, hname, hnewer,
        List.forall_mem_cons.2 ⟨latest?_eq_none_iff.1 hd, hinner⟩⟩

theorem find?_eq_none_iff :
    site.find? name = none ↔ ∀ scope ∈ site.scopes, ∀ d ∈ scope, d.name ≠ name := by
  unfold Site.find?
  generalize site.scopes = scopes
  induction scopes with
  | nil => simp [find?.go]
  | cons scope outer ih =>
    rw [find?.go, Option.or_eq_none_iff, ih, Option.map_eq_none_iff, latest?_eq_none_iff,
      List.forall_mem_cons]

end Site

theorem membersOf_cons (c : ClassDecl) (classes : List ClassDecl) (cls : String) :
    membersOf (c :: classes) cls =
      if cls = c.name then c.ownMembers ++ c.inheritedMembers classes
      else membersOf classes cls := by
  by_cases h : cls = c.name
  · subst h
    rw [membersOf, lineage, if_pos rfl, if_pos rfl, List.flatMap_cons, ClassDecl.inheritedMembers]
    cases c.superclass <;> rfl
  · rw [membersOf, lineage, if_neg (Ne.symm h), if_neg h]
    rfl

@[simp] theorem Site.length_scopes_declareClass (site : Site) (c : ClassDecl) :
    (site.declareClass c).scopes.length = site.scopes.length := by
  simp [Site.declareClass, Site.declare]

/-! ### Environments -/

/-- A map has, under each name, an entry that is related to the last declaration of the name. -/
def Mirrored (R : Declaration → Entry → Prop) (scope : List Declaration) (m : NameMap Entry) :
    Prop :=
  ∀ name, Option.Rel R (latest? scope name) (m.get? name)

section Mirrored

variable {R : Declaration → Entry → Prop} {scope : List Declaration} {m : NameMap Entry}

theorem mirrored_empty : Mirrored R [] .empty := fun _ => .none

/-- A declaration and its entry are added. -/
theorem Mirrored.insert (h : Mirrored R scope m) {d : Declaration} {e : Entry} (hd : R d e) :
    Mirrored R (d :: scope) (m.insert d.name e) := by
  intro name
  rw [latest?_cons, NameMap.get?_insert]
  split
  · exact .some hd
  · exact h name

end Mirrored

/-- `Mirrored` for scopes listed from the innermost one on, where the relation may depend on the
index of the scope. -/
inductive ScopesMirrored (R : Nat → Declaration → Entry → Prop) :
    List (List Declaration) → List Scope → Prop where
  | nil : ScopesMirrored R [] []
  | cons {scope : List Declaration} {m : Scope} {outer : List (List Declaration)}
      {maps : List Scope} (hscope : Mirrored (R outer.length) scope m)
      (houter : ScopesMirrored R outer maps) : ScopesMirrored R (scope :: outer) (m :: maps)

theorem ScopesMirrored.length_eq {R : Nat → Declaration → Entry → Prop}
    {scopes : List (List Declaration)} {maps : List Scope} (h : ScopesMirrored R scopes maps) :
    scopes.length = maps.length := by
  induction h with
  | nil => rfl
  | cons _ _ ih => rw [List.length_cons, List.length_cons, ih]

/-- An environment has entries for what is declared around a point of a tree. -/
structure Mirrors (R : Nat → Declaration → Entry → Prop) (site : Site) (env : Env) : Prop where
  scopes : ScopesMirrored R site.scopes env.scopes.scopes
  nonempty : site.scopes ≠ []
  members : ∀ cls,
    Mirrored (R 1) (membersOf site.classes cls) ((env.classes.layout? cls).getD .empty).members
  known : ∀ cls, env.classes.contains cls = true ↔ cls ∈ site.classes.map (·.name)
  current : env.current = none

namespace Mirrors

variable {R : Nat → Declaration → Entry → Prop} {site : Site} {env : Env}

theorem start : Mirrors R .start (Env.empty.enter .empty) where
  scopes := .cons mirrored_empty .nil
  nonempty := by simp [Site.start]
  members _ := mirrored_empty
  known cls := by simp [Site.start, Env.empty, Env.enter, ClassTable.empty, ClassTable.contains,
    NameMap.contains]
  current := rfl

theorem level_eq (h : Mirrors R site env) : env.level = site.scopes.length - 1 := by
  rw [h.scopes.length_eq]
  rfl

/-- The members of a class are one level inside the outermost scope. -/
theorem innerLevel (h : Mirrors R site env) (hsingle : site.scopes.length = 1) :
    ClassDecl.innerLevel env = 1 := by
  rw [ClassDecl.innerLevel, h.level_eq, hsingle]

/-- A name is looked up on both sides alike. -/
theorem lookup (h : Mirrors R site env) (name : String) :
    Option.Rel (fun x e => R x.1 x.2 e) (site.find? name) (env.scopes.lookup name) := by
  have hscopes := h.scopes
  unfold Site.find? ScopeStack.lookup
  generalize site.scopes = scopes, env.scopes.scopes = maps at hscopes
  induction hscopes with
  | nil => exact .none
  | @cons scope m outer maps hscope _ ih =>
    have hname := hscope name
    rw [Site.find?.go, List.findSome?_cons]
    generalize latest? scope name = d, m.get? name = e at hname
    cases hname with
    | some hr => exact .some hr
    | none => exact ih

theorem enter (h : Mirrors R site env) {scope : List Declaration} {m : Scope}
    (hm : Mirrored (R site.scopes.length) scope m) :
    Mirrors R (site.enter scope) (env.enter m) where
  scopes := .cons hm h.scopes
  nonempty := by simp [Site.enter]
  members := h.members
  known := h.known
  current := h.current

/-- A declaration in the innermost scope. -/
theorem declare (h : Mirrors R site env) {d : Declaration} {e : Entry} (hd : R env.level d e) :
    Mirrors R (site.declare d) (env.declare d.name e) := by
  obtain ⟨⟨maps⟩, classes, nextLocal, current⟩ := env
  obtain ⟨scopes, declared⟩ := site
  have hlevel := h.level_eq
  have hmirrored := h.scopes
  cases hmirrored with
  | nil => exact absurd rfl h.nonempty
  | @cons scope m outer maps hscope houter =>
    rw [hlevel, List.length_cons, Nat.add_sub_cancel] at hd
    exact ⟨.cons (hscope.insert hd) houter, by simp [Site.declare], h.members, h.known, h.current⟩

/-- A local declaration. -/
theorem declareLocal (h : Mirrors R site env) {d : Declaration} {ty : Ty}
    (hd : R env.level d (env.localEntry ty)) :
    Mirrors R (site.declare d) (env.declareLocal d.name ty) :=
  let hdeclared := h.declare hd
  ⟨hdeclared.scopes, hdeclared.nonempty, hdeclared.members, hdeclared.known, hdeclared.current⟩

/-- The members of a class are added to those that it inherits. -/
theorem inherited (h : Mirrors R site env) (c : ClassDecl) :
    Mirrored (R 1) (c.inheritedMembers site.classes) (c.inherited env).members := by
  unfold ClassDecl.inheritedMembers ClassDecl.inherited
  cases c.superclass with
  | none => exact mirrored_empty
  | some cls => exact h.members cls

/-- A class that has been laid out; the tree may have another form of the class. -/
theorem declareClass (h : Mirrors R site env) (hsingle : site.scopes.length = 1)
    {c c' : ClassDecl} (hname : c'.name = c.name) (hentry : R 0 (.cls c') (c.ownEntry env))
    (hlayout : Mirrored (R 1) (c'.ownMembers ++ c'.inheritedMembers site.classes)
      (c.layout env).members) :
    Mirrors R (site.declareClass c') (c.extend env) := by
  obtain ⟨⟨maps⟩, classes, nextLocal, current⟩ := env
  obtain ⟨scopes, declared⟩ := site
  have hmirrored := h.scopes
  cases hmirrored with
  | nil => exact absurd rfl h.nonempty
  | @cons scope m outer maps hscope houter =>
    obtain rfl : outer = [] := List.length_eq_zero_iff.1 (by simpa using hsingle)
    cases houter
    refine ⟨?_, by simp [Site.declareClass, Site.declare], fun cls => ?_, fun cls => ?_, rfl⟩
    · refine .cons ?_ .nil
      rw [← hname]
      exact hscope.insert hentry
    · -- a class of the same name that came before is no longer found on either side
      rw [Site.declareClass, membersOf_cons, ClassDecl.extend, ClassTable.layout?,
        ClassTable.insert, NameMap.get?_insert, hname]
      split
      · exact hlayout
      · exact h.members cls
    · have hknown := h.known cls
      simp only [ClassTable.contains, NameMap.contains] at hknown
      simp only [Site.declareClass, ClassDecl.extend, ClassTable.contains, NameMap.contains,
        ClassTable.insert, NameMap.get?_insert, List.map_cons, List.mem_cons, hname]
      by_cases hcls : cls = c.name
      · simp [hcls]
      · simp [hcls, hknown]

/-- Inside a class that has been laid out. -/
theorem enterClass (h : Mirrors R site env) (hsingle : site.scopes.length = 1)
    {c c' : ClassDecl} (hname : c'.name = c.name) (hentry : R 0 (.cls c') (c.ownEntry env))
    (hlayout : Mirrored (R 1) (c'.ownMembers ++ c'.inheritedMembers site.classes)
      (c.layout env).members) :
    Mirrors R (site.enterClass c') (c.methodEnv env) := by
  refine (h.declareClass hsingle hname hentry hlayout).enter ?_
  rw [Site.length_scopes_declareClass, hsingle, membersOf_cons, if_pos rfl]
  exact hlayout

end Mirrors

end ObjectLang
