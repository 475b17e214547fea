import ObjectLang.Proofs.Layout

/-!
# Environments and what they look up

What a declaration does to an environment with at least one scope: the name is looked up as
declared, all other names as before, and the nesting level and the classes stay the same.
-/

namespace ObjectLang

namespace Env

variable {env : Env} {name other : String} {entry : Entry}

/-- There is a scope to declare names in. -/
def Opened (env : Env) : Prop := env.scopes.scopes ≠ []

@[simp] theorem opened_enter (scope : Scope) : (env.enter scope).Opened := by
  simp [Opened, enter, ScopeStack.push]

theorem lookup_enter (scope : Scope) :
    (env.enter scope).scopes.lookup name = (scope.get? name).or (env.scopes.lookup name) := by
  simp only [enter, ScopeStack.push, ScopeStack.lookup, List.findSome?_cons]
  cases scope.get? name <;> rfl

@[simp] theorem lookup_enter_empty :
    (env.enter .empty).scopes.lookup name = env.scopes.lookup name := by
  rw [lookup_enter]
  rfl

theorem level_enter (h : env.Opened) (scope : Scope) : (env.enter scope).level = env.level + 1 := by
  have hpos := List.length_pos_iff.2 h
  simp only [level, enter, ScopeStack.push, ScopeStack.level, ScopeStack.depth, List.length_cons]
  omega

theorem declare_scopes (h : env.Opened) :
    ∃ scope outer, env.scopes.scopes = scope :: outer ∧
      env.declare name entry = { env with scopes := ⟨scope.insert name entry :: outer⟩ } := by
  obtain ⟨⟨_ | ⟨scope, outer⟩⟩, classes, nextLocal, current⟩ := env
  · exact absurd rfl h
  · exact ⟨scope, outer, rfl, rfl⟩

theorem lookup_declare (h : env.Opened) :
    (env.declare name entry).scopes.lookup other =
      if other = name then some entry else env.scopes.lookup other := by
  obtain ⟨scope, outer, hs, hd⟩ := @declare_scopes env name entry h
  simp only [hd, ScopeStack.lookup, hs, List.findSome?_cons, NameMap.get?_insert]
  by_cases ho : other = name <;> simp [ho]

@[simp] theorem opened_declare : (env.declare name entry).Opened ↔ env.Opened := by
  obtain ⟨⟨_ | ⟨scope, outer⟩⟩, classes, nextLocal, current⟩ := env
  · rfl
  · simp [Opened, declare, ScopeStack.declare]

@[simp] theorem level_declare : (env.declare name entry).level = env.level := by
  obtain ⟨⟨_ | ⟨scope, outer⟩⟩, classes, nextLocal, current⟩ := env <;> rfl

@[simp] theorem classes_declare : (env.declare name entry).classes = env.classes := by
  obtain ⟨⟨_ | ⟨scope, outer⟩⟩, classes, nextLocal, current⟩ := env <;> rfl

@[simp] theorem nextLocal_declare : (env.declare name entry).nextLocal = env.nextLocal := by
  obtain ⟨⟨_ | ⟨scope, outer⟩⟩, classes, nextLocal, current⟩ := env <;> rfl

variable {ty : Ty}

@[simp] theorem opened_declareLocal : (env.declareLocal name ty).Opened ↔ env.Opened :=
  opened_declare

@[simp] theorem level_declareLocal : (env.declareLocal name ty).level = env.level :=
  level_declare

@[simp] theorem classes_declareLocal : (env.declareLocal name ty).classes = env.classes :=
  classes_declare

@[simp] theorem nextLocal_declareLocal :
    (env.declareLocal name ty).nextLocal = env.nextLocal - 1 := rfl

@[simp] theorem classes_withParams (offset : Int) (ps : List TypedName) :
    (env.withParams offset ps).classes = env.classes := by
  induction ps generalizing env offset with
  | nil => rfl
  | cons p ps ih => simp [withParams, ih]

@[simp] theorem nextLocal_withParams (offset : Int) (ps : List TypedName) :
    (env.withParams offset ps).nextLocal = env.nextLocal := by
  induction ps generalizing env offset with
  | nil => rfl
  | cons p ps ih => simp [withParams, ih]

@[simp] theorem classes_enterRoutine (params : List TypedName) :
    (env.enterRoutine params).classes = env.classes := by
  simp [enterRoutine, enter]

@[simp] theorem nextLocal_enterRoutine (params : List TypedName) :
    (env.enterRoutine params).nextLocal = firstLocal := by
  simp [enterRoutine, enter]

end Env

namespace Decl

variable {env : Env}

@[simp] theorem classes_extend (d : Decl) : (d.extend env).classes = env.classes := by
  cases d <;> simp [Decl.extend]

@[simp] theorem classes_extendAll (ds : List Decl) :
    (Decl.extendAll env ds).classes = env.classes := by
  induction ds generalizing env with
  | nil => rfl
  | cons d ds ih => rw [Decl.extendAll, List.foldl_cons, ← Decl.extendAll, ih, classes_extend]

end Decl

end ObjectLang
