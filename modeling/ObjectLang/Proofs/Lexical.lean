import ObjectLang.Proofs.Sites
import ObjectLang.Proofs.Tables

/-!
# Names are bound lexically

Whatever is wrong with a program, each use of a name that is bound is bound to the last declaration
of the name before it, in the innermost scope around it that has one, and the number of links to
follow is the number of scopes in between (`Program.lexical_bind`).  The declarations and scopes are
those of the bound tree itself (`Program.located`); how environments, levels and layouts come about
is no part of the statement.
-/

namespace ObjectLang

/-- The entry is the one that the tree has for the declaration, in the scope with the given index,
and says so. -/
def Declaration.HasEntry (index : Nat) (d : Declaration) (e : Entry) : Prop :=
  d.entry? index = some e ∧ e.level = index

/-- At a site, a name is bound to an entry from a nesting level, so many links away.

The entry is that of the last declaration of the name in the innermost scope that has one.  Its
level is the index of that scope, the level of the use is the index of the innermost scope, and the
links are as many as there are scopes inside the scope of the declaration. -/
def Site.Binds (site : Site) (name : String) (e : Entry) (level hops : Nat) : Prop :=
  ∃ inner newer d older outer, site.scopes = inner ++ (newer ++ d :: older) :: outer ∧
    d.name = name ∧ (∀ d' ∈ newer, d'.name ≠ name) ∧
    (∀ scope ∈ inner, ∀ d' ∈ scope, d'.name ≠ name) ∧
    d.entry? outer.length = some e ∧ e.level = outer.length ∧
    level + 1 = site.scopes.length ∧ e.level ≤ level ∧ hops = inner.length

/-- A use of a name is bound to what is declared around it; a variable or a function that is not
bound is not declared. -/
def Located.Lexical (x : Located) : Prop :=
  match x.note with
  | .ident _ name (some b) | .call _ name (some b) => x.site.Binds name b.entry b.level b.hops
  | .send _ receiver _ (some b) => x.site.Binds receiver b.receiver b.level b.hops
  | .ident _ name none | .call _ name none => ∀ scope ∈ x.site.scopes, ∀ d ∈ scope, d.name ≠ name
  | _ => True

/-! ### Uses -/

namespace Mirrors

variable {site : Site} {env : Env} (h : Mirrors Declaration.HasEntry site env)
include h

theorem binds {name : String} {e : Entry} (he : env.scopes.lookup name = some e) :
    site.Binds name e env.level (env.level - e.level) := by
  have hrel := h.lookup name
  rw [he] at hrel
  generalize hfind : site.find? name = found at hrel
  cases hrel with
  | @some x _ hentry =>
    obtain ⟨index, d⟩ := x
    obtain ⟨inner, newer, older, outer, hscopes, rfl, hname, hnewer, hinner⟩ :=
      Site.exists_of_find? hfind
    obtain ⟨hentry, hindex⟩ : d.entry? outer.length = some e ∧ e.level = outer.length := hentry
    have hlevel := h.level_eq
    have hlength := congrArg List.length hscopes
    simp only [List.length_append, List.length_cons] at hlength
    exact ⟨inner, newer, d, older, outer, hscopes, hname, hnewer, hinner, hentry, hindex,
      by omega, by omega, by omega⟩

theorem undeclared {name : String} (he : env.scopes.lookup name = none) :
    ∀ scope ∈ site.scopes, ∀ d ∈ scope, d.name ≠ name := by
  have hrel := h.lookup name
  rw [he] at hrel
  generalize hfind : site.find? name = found at hrel
  cases hrel
  exact Site.find?_eq_none_iff.1 hfind

/-- A use of a variable or function. -/
theorem lexical_binding? (line : SourceLine) (name : String) :
    Located.Lexical ⟨site, .ident line name (env.binding? name)⟩ ∧
      Located.Lexical ⟨site, .call line name (env.binding? name)⟩ := by
  cases he : env.scopes.lookup name with
  | none =>
    rw [Env.binding?, he]
    exact ⟨h.undeclared he, h.undeclared he⟩
  | some e =>
    rw [Env.binding?, he]
    exact ⟨h.binds he, h.binds he⟩

theorem lexical_methodBinding? (line : SourceLine) (receiver method : String) :
    Located.Lexical ⟨site, .send line receiver method (env.methodBinding? receiver method)⟩ := by
  cases hb : env.methodBinding? receiver method with
  | none => trivial
  | some b =>
    -- a method call is only bound if its receiver is
    unfold Env.methodBinding? Env.methodBinding at hb
    split at hb
    · cases hb
    · rename_i e he
      split at hb
      · split at hb
        · cases hb
        · cases hb
          exact h.binds he
      · cases hb

theorem lexical_expr (e : Expr) : ∀ x ∈ (e.bind env).located site, x.Lexical := by
  have hnotes : ∀ n ∈ (e.bind env).notes, Located.Lexical ⟨site, n⟩ := by
    induction e using Expr.ind with
    | int | bool | null => simp [Expr.bind, Expr.notes]
    | arith line op l r hl hr | compare line op l r hl hr | logic line op l r hl hr =>
      simp only [Expr.bind, Expr.notes, List.forall_mem_append]
      exact ⟨hl, hr⟩
    | not line e he | print line e he => exact he
    | cond line c t f hc ht hf =>
      simp only [Expr.bind, Expr.notes, List.forall_mem_append]
      exact ⟨⟨hc, ht⟩, hf⟩
    | ident line name b =>
      simp only [Expr.bind, Expr.notes, List.forall_mem_singleton]
      exact (h.lexical_binding? line name).1
    | call line name args b hargs =>
      simp only [Expr.bind, Expr.notes, List.forall_mem_cons]
      refine ⟨(h.lexical_binding? line name).2, ?_⟩
      simpa [Expr.notesAll_eq_flatMap, Expr.bindAll_eq_map] using fun n e he hn => hargs e he n hn
    | send line receiver method args b hargs =>
      simp only [Expr.bind, Expr.notes, List.forall_mem_cons]
      refine ⟨h.lexical_methodBinding? line receiver method, ?_⟩
      simpa [Expr.notesAll_eq_flatMap, Expr.bindAll_eq_map] using fun n e he hn => hargs e he n hn
    | new line cls args entry hargs =>
      simp only [Expr.bind, Expr.notes, List.forall_mem_cons]
      refine ⟨trivial, ?_⟩
      simpa [Expr.notesAll_eq_flatMap, Expr.bindAll_eq_map] using fun n e he hn => hargs e he n hn
  simpa [Expr.located] using hnotes

end Mirrors

/-! ### Declarations -/

theorem Routine.located_offset (site : Site) (f : Routine) (offset : Option Int) :
    Routine.located site { f with offset := offset } = f.located site := by
  cases f
  simp only [Routine.located]

namespace Mirrors

variable {site : Site} {env : Env}

/-- Parameters with their places are added to a scope. -/
theorem withParams {scope : List Declaration} {outer : List (List Declaration)}
    {classes : List ClassDecl}
    (h : Mirrors Declaration.HasEntry ⟨scope :: outer, classes⟩ env) (offset : Int)
    (params : List TypedName) :
    Mirrors Declaration.HasEntry
      ⟨(((placeParams offset params).map .param).reverse ++ scope) :: outer, classes⟩
      (env.withParams offset params) := by
  induction params generalizing scope env offset with
  | nil => exact h
  | cons p ps ih =>
    rw [placeParams, List.map_cons, List.reverse_cons, List.append_assoc, List.singleton_append,
      Env.withParams]
    have hp : Declaration.HasEntry env.level (.param { p with offset := some offset })
        ⟨env.level, p.ty, offset⟩ := ⟨rfl, rfl⟩
    exact ih (h.declare hp) (offset + 1)

theorem enterRoutine (h : Mirrors Declaration.HasEntry site env) (params : List TypedName) :
    Mirrors Declaration.HasEntry (site.enterRoutine (placeParams firstParam params))
      (env.enterRoutine params) := by
  have henter := withParams (h.enter mirrored_empty) firstParam params
  rwa [List.append_nil] at henter

/-- A variable or function, bound in the environment before it. -/
theorem extend (h : Mirrors Declaration.HasEntry site env) (d : Decl) :
    Mirrors Declaration.HasEntry (site.declare (d.bind env).declaration) (d.extend env) := by
  cases d with
  | var v =>
    have hv : Declaration.HasEntry env.level
        (.var { v with init := v.init.bind env, offset := some env.nextLocal })
        (env.localEntry v.ty) := ⟨rfl, rfl⟩
    exact h.declareLocal hv
  | fn f =>
    have hf : Declaration.HasEntry env.level (Decl.bind env (.fn f)).declaration
        (env.localEntry (.arrow f.signature)) := by
      -- the entry is made from the function as it was, the bound one has the same signature
      refine ⟨?_, rfl⟩
      simp only [Decl.bind, Decl.declaration, Declaration.entry?, Env.localEntry, Option.map_some,
        ← Routine.signature_bindInner (Decl.extend env (.fn f)) f]
      rfl
    have hdeclared := h.declareLocal hf
    have hname : (Decl.bind env (.fn f)).declaration.name = f.name :=
      Routine.name_bindInner (Decl.extend env (.fn f)) f
    rwa [hname] at hdeclared

theorem extendAll (h : Mirrors Declaration.HasEntry site env) (ds : List Decl) :
    Mirrors Declaration.HasEntry (site.declareAll (Decl.bindAll env ds))
      (Decl.extendAll env ds) := by
  induction ds generalizing site env with
  | nil => exact h
  | cons d ds ih => exact ih (h.extend d)

end Mirrors

/-- Wherever the declaration is bound, its uses are bound lexically. -/
def Decl.IsLexical (d : Decl) : Prop :=
  ∀ site env, Mirrors Declaration.HasEntry site env →
    ∀ x ∈ (d.bind env).located site, x.Lexical

theorem Decl.lexical_all {ds : List Decl} (hs : ∀ d ∈ ds, d.IsLexical) {site : Site} {env : Env}
    (h : Mirrors Declaration.HasEntry site env) :
    ∀ x ∈ Decl.locatedAll site (Decl.bindAll env ds), x.Lexical := by
  induction ds generalizing site env with
  | nil => simp [Decl.bindAll, Decl.locatedAll]
  | cons d ds ih =>
    rw [Decl.bindAll, Decl.locatedAll, List.forall_mem_append]
    exact ⟨hs d List.mem_cons_self site env h,
      ih (fun d hd => hs d (List.mem_cons_of_mem _ hd)) (h.extend d)⟩

theorem Routine.lexical_of_decls {f : Routine} (hs : ∀ d ∈ f.decls, d.IsLexical) {site : Site}
    {env : Env} (h : Mirrors Declaration.HasEntry site env) :
    ∀ x ∈ (f.bindInner env).located site, x.Lexical := by
  obtain ⟨name, params, ret, decls, body, line, offset⟩ := f
  have hinner := h.enterRoutine params
  simp only [Routine.bindInner, Routine.located, List.forall_mem_append]
  refine ⟨⟨?_, Decl.lexical_all hs hinner⟩, (hinner.extendAll decls).lexical_expr body⟩
  simp [Located.Lexical]

theorem Decl.isLexical (d : Decl) : d.IsLexical := by
  induction d using Decl.ind with
  | var v =>
    intro site env h
    rw [Decl.bind, Decl.located, List.forall_mem_cons]
    exact ⟨trivial, h.lexical_expr v.init⟩
  | fn f hf =>
    intro site env h
    rw [Decl.bind, Decl.located, Routine.located_offset, List.forall_mem_cons]
    exact ⟨trivial, Routine.lexical_of_decls hf (h.extend (.fn f))⟩

/-! ### Classes -/

section Members

variable {l : Layout} {members : List Declaration} {level : Nat}

/-- Fields with their places are added to the members of a class. -/
theorem Mirrored.addFields (h : Mirrored (Declaration.HasEntry level) members l.members)
    (fs : List TypedName) :
    Mirrored (Declaration.HasEntry level)
      (((l.placeFields level fs).map .field).reverse ++ members)
      (l.addFields level fs).members := by
  induction fs generalizing l members with
  | nil => exact h
  | cons f fs ih =>
    rw [Layout.placeFields, List.map_cons, List.reverse_cons, List.append_assoc,
      List.singleton_append]
    have hf : Declaration.HasEntry level
        (.field { f with offset := some (l.fieldOffset f.name) })
        (l.fieldEntry f.name f.ty level) := ⟨rfl, rfl⟩
    exact ih (l := l.addField f.name f.ty level) (h.insert hf)

/-- Methods with their places are added to the members of a class. -/
theorem Mirrored.addMethods (h : Mirrored (Declaration.HasEntry level) members l.members)
    (env : Env) (ms : List Routine) :
    Mirrored (Declaration.HasEntry level)
      ((((l.placeMethods level ms).map (Routine.bindInner env)).map .method).reverse ++ members)
      (l.addMethods level ms).members := by
  induction ms generalizing l members with
  | nil => exact h
  | cons m ms ih =>
    rw [Layout.placeMethods, List.map_cons, List.map_cons, List.reverse_cons, List.append_assoc,
      List.singleton_append, Routine.bindInner_offset]
    have hm : Declaration.HasEntry level
        (.method { m.bindInner env with offset := some (l.methodOffset m.name) })
        (l.methodEntry m.name m.signature level) := by
      refine ⟨?_, rfl⟩
      simp only [Declaration.entry?, Layout.methodEntry, Option.map_some,
        ← Routine.signature_bindInner env m]
      rfl
    have hinsert := h.insert hm
    have hname : (Declaration.method
        { m.bindInner env with offset := some (l.methodOffset m.name) }).name = m.name :=
      Routine.name_bindInner env m
    rw [hname] at hinsert
    exact ih (l := l.addMethod m.name m.signature level) hinsert

end Members

namespace Mirrors

variable {site : Site} {env : Env} (h : Mirrors Declaration.HasEntry site env)
  (hsingle : site.scopes.length = 1) (c : ClassDecl)
include h hsingle

/-- The layout of a class has its members and those that it inherits. -/
theorem layout : Mirrored (Declaration.HasEntry 1)
    ((c.bind env).ownMembers ++ (c.bind env).inheritedMembers site.classes)
    (c.layout env).members := by
  have hlevel := h.innerLevel hsingle
  have hfields := (h.inherited c).addFields c.fields
  have hmethods := hfields.addMethods (c.methodEnv env) c.methods
  rw [← List.append_assoc] at hmethods
  unfold ClassDecl.layout ClassDecl.fieldLayout ClassDecl.bind ClassDecl.ownMembers
  simp only [ClassDecl.fieldLayout, hlevel]
  exact hmethods

theorem ownEntry : Declaration.HasEntry 0 (.cls (c.bind env)) (c.ownEntry env) := by
  refine ⟨rfl, ?_⟩
  rw [ClassDecl.ownEntry, Env.localEntry, h.level_eq, hsingle]

theorem lexical_class : ∀ x ∈ (c.bind env).located site, x.Lexical := by
  have hinner : Mirrors Declaration.HasEntry (site.enterClass (c.bind env)) (c.methodEnv env) :=
    h.enterClass hsingle rfl (h.ownEntry hsingle c) (h.layout hsingle c)
  have hmethod : ∀ m ∈ (c.bind env).methods,
      ∀ x ∈ m.located (site.enterClass (c.bind env)), x.Lexical := by
    intro m hm
    obtain ⟨m', -, rfl⟩ := List.mem_map.1 hm
    exact Routine.lexical_of_decls (fun d _ => d.isLexical) hinner
  simp only [ClassDecl.located, List.cons_append, List.forall_mem_cons, List.forall_mem_append,
    List.forall_mem_map, List.forall_mem_flatMap]
  exact ⟨trivial, fun _ _ => trivial, fun m hm => ⟨trivial, hmethod m hm⟩⟩

end Mirrors

theorem ClassDecl.lexical_all {site : Site} {env : Env}
    (h : Mirrors Declaration.HasEntry site env) (hsingle : site.scopes.length = 1)
    (cs : List ClassDecl) :
    (∀ x ∈ ClassDecl.locatedAll site (ClassDecl.bindAll env cs), x.Lexical) ∧
      Mirrors Declaration.HasEntry (site.declareClasses (ClassDecl.bindAll env cs))
        (ClassDecl.extendAll env cs) := by
  induction cs generalizing site env with
  | nil => exact ⟨by simp [ClassDecl.bindAll, ClassDecl.locatedAll], h⟩
  | cons c cs ih =>
    have hnext : Mirrors Declaration.HasEntry (site.declareClass (c.bind env)) (c.extend env) :=
      h.declareClass hsingle rfl (h.ownEntry hsingle c) (h.layout hsingle c)
    obtain ⟨hlexical, hmirrors⟩ := ih hnext (by rwa [Site.length_scopes_declareClass])
    rw [ClassDecl.bindAll, ClassDecl.locatedAll, List.forall_mem_append]
    exact ⟨⟨h.lexical_class hsingle c, hlexical⟩, hmirrors⟩

namespace Program

/-- **Names are bound lexically.**  For every program, with or without errors, and each note of its
bound tree: a use of a name that is bound, as a variable, as a function or as the receiver of a
method call, is bound to the last declaration of the name in the innermost scope around it that has
one, and follows as many links as there are scopes in between. -/
theorem lexical_bind (p : Program) :
    p.bind.located.map Located.note = p.bind.notes ∧ ∀ x ∈ p.bind.located, x.Lexical := by
  refine ⟨p.bind.map_note_located, ?_⟩
  obtain ⟨hclasses, hmirrors⟩ := ClassDecl.lexical_all Mirrors.start rfl p.classes
  have hdecls : ∀ x ∈ Decl.locatedAll _ (Decl.bindAll _ p.decls), x.Lexical :=
    Decl.lexical_all (fun d _ => d.isLexical) hmirrors
  have hmain := (hmirrors.extendAll p.decls).lexical_expr p.main
  simp only [Program.located, List.forall_mem_append]
  cases p with
  | body main => exact ⟨⟨hclasses, hdecls⟩, hmain⟩
  | letIn classes decls main => exact ⟨⟨hclasses, hdecls⟩, hmain⟩

/-- A method with a function inside, where `x` is an inherited field and `y` is both a parameter and
a variable. -/
def shadowing : Program :=
  .letIn
    [{ name := "Cell", fields := [{ name := "x", ty := .int }], methods := [] },
     { name := "Deep"
       superclass := some "Cell"
       fields := []
       methods :=
        [{ name := "get", params := [{ name := "y", ty := .int }], ret := .int,
           decls :=
            [.var { name := "y", ty := .bool, init := .bool 0 true },
             .fn { name := "inner", params := [], ret := .int, decls := [],
                   body := .cond 0 (.ident 0 "y" none) (.ident 0 "x" none) (.int 0 0) }],
           body := .call 0 "inner" [] none }] }]
    [] (.null 0)

theorem lexical_bind_shadowing :
    shadowing.nameErrors = [⟨.declaredTwice .var "y", 0⟩] ∧
      (∃ site, ⟨site, .ident 0 "y" (some ⟨⟨2, .bool, -2⟩, 3⟩)⟩ ∈ shadowing.bind.located ∧
        site.Binds "y" ⟨2, .bool, -2⟩ 3 1) ∧
      ∃ site, ⟨site, .ident 0 "x" (some ⟨⟨1, .int, -1⟩, 3⟩)⟩ ∈ shadowing.bind.located ∧
        site.Binds "x" ⟨1, .int, -1⟩ 3 2 := by
  have hnote : ∀ n ∈ shadowing.bind.notes, ∃ site, ⟨site, n⟩ ∈ shadowing.bind.located := by
    intro n hn
    rw [← (lexical_bind shadowing).1] at hn
    obtain ⟨⟨site, _⟩, hx, rfl⟩ := List.mem_map.1 hn
    exact ⟨site, hx⟩
  have hnoteY : shadowing.bind.notes[7]? = some (.ident 0 "y" (some ⟨⟨2, .bool, -2⟩, 3⟩)) := rfl
  have hnoteX : shadowing.bind.notes[8]? = some (.ident 0 "x" (some ⟨⟨1, .int, -1⟩, 3⟩)) := rfl
  obtain ⟨siteY, hy⟩ := hnote _ (List.mem_of_getElem? hnoteY)
  obtain ⟨siteX, hx⟩ := hnote _ (List.mem_of_getElem? hnoteX)
  exact ⟨rfl, ⟨siteY, hy, (lexical_bind shadowing).2 _ hy⟩,
    siteX, hx, (lexical_bind shadowing).2 _ hx⟩

end Program

end ObjectLang
