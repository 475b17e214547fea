import ObjectLang.Pipeline
import ObjectLang.Proofs.Erasure
import Mathlib.Data.List.Perm.Basic

/-!
# Compiling a tree again

A tree that is compiled, edited and compiled again still holds what name resolution wrote the first
time.  Nearly all of it is replaced before it is looked at.  What is not replaced is the entry of
the superclass in a class that has no superclass, or none any more; the type checker still compares
the class with such a *stray* entry.

* Two trees that differ in what has been written into them, but not in stray entries, compile to
  the same; and a tree compiles to the same as it does with nothing written into it if and only if
  its stray entries give rise to no type errors (`Program.compile_of_erase_eq`).
* They may give rise to some (`Program.compile_depends_on_strayEntry`).
-/

namespace ObjectLang

namespace ClassDecl

variable (c : ClassDecl)

/-- The entry that a class without a superclass has for its superclass. -/
def strayEntry : Option Entry := if c.superclass.isNone then c.superEntry else none

/-- The class without a stray entry. -/
def dropStray : ClassDecl := { c with superEntry := c.superclass.bind fun _ => c.superEntry }

/-- The type errors that a class gets from its stray entry. -/
def strayErrors (h : Hierarchy) : List TypeError :=
  if c.superclass.isNone then reported (c.checkInherited h) else []

variable {c}

theorem eq_of_dropStray_eq {d : ClassDecl} (hdrop : c.dropStray = d.dropStray)
    (hstray : c.strayEntry = d.strayEntry) : c = d := by
  obtain ⟨name, superclass, fields, methods, line, entry, superEntry⟩ := c
  obtain ⟨name', superclass', fields', methods', line', entry', superEntry'⟩ := d
  simp only [dropStray, mk.injEq] at hdrop
  obtain ⟨rfl, rfl, rfl, rfl, rfl, rfl, hkept⟩ := hdrop
  cases superclass with
  | none => rw [show superEntry = superEntry' from hstray]
  | some d => rw [show superEntry = superEntry' from hkept]

theorem eq_of_map_dropStray_eq {cs ds : List ClassDecl}
    (hdrop : cs.map dropStray = ds.map dropStray)
    (hstray : cs.map strayEntry = ds.map strayEntry) : cs = ds := by
  induction cs generalizing ds with
  | nil => exact (List.map_eq_nil_iff.1 hdrop.symm).symm
  | cons c cs ih =>
    obtain _ | ⟨d, ds⟩ := ds
    · cases hdrop
    · rw [List.map_cons, List.map_cons, List.cons.injEq] at hdrop hstray
      rw [eq_of_dropStray_eq hdrop.1 hstray.1, ih hdrop.2 hstray.2]

/-! ### Name resolution -/

variable {env : Env}

theorem strayEntry_bind : (c.bind env).strayEntry = c.strayEntry := by
  cases hsuper : c.superclass <;> simp [strayEntry, ClassDecl.bind, hsuper]

theorem map_strayEntry_bindAll (env : Env) (cs : List ClassDecl) :
    (bindAll env cs).map strayEntry = cs.map strayEntry := by
  induction cs generalizing env with
  | nil => rfl
  | cons c cs ih => rw [bindAll, List.map_cons, List.map_cons, strayEntry_bind, ih]

/-- If a superclass is known, its entry replaces whatever there was. -/
theorem bind_erase_of_superclassErrors (h : c.superclassErrors env = []) :
    c.erase.bind env = (c.bind env).dropStray := by
  have hentry : c.superclass.bind env.classes.entry? = c.superclass.bind fun _ =>
      (c.superclass.bind env.classes.entry?).or c.superEntry := by
    rw [superclassErrors] at h
    cases hsuper : c.superclass with
    | none => rfl
    | some d =>
      have hknown : env.classes.contains d = true := by
        simpa [hsuper] using h
      obtain ⟨r, hr⟩ := Option.isSome_iff_exists.1 hknown
      simp [ClassTable.entry?, hr]
  have hnone : (c.superclass.bind env.classes.entry?).or none =
      c.superclass.bind env.classes.entry? := Option.or_none
  calc c.erase.bind env
      = { c.erase.bind env with superEntry := c.superclass.bind env.classes.entry? } := by
        rw [← hnone]
        rfl
    _ = { c.erase.bind env with superEntry := c.superclass.bind fun _ =>
          (c.superclass.bind env.classes.entry?).or c.superEntry } := by rw [← hentry]
    _ = (c.bind env).dropStray := by
        rw [bind_eq env c]
        rfl

theorem bindAll_erase (cs : List ClassDecl) (h : nameErrorsAll env cs = []) :
    bindAll env (cs.map erase) = (bindAll env cs).map dropStray := by
  induction cs generalizing env with
  | nil => rfl
  | cons c cs ih =>
    simp only [nameErrorsAll, nameErrors, List.append_eq_nil_iff] at h
    rw [List.map_cons, bindAll, bindAll, List.map_cons, extend_erase, ih h.2,
      bind_erase_of_superclassErrors h.1.1.1.1]

/-! ### Type checking -/

theorem dropStray_of_superclass {d : String} (hsuper : c.superclass = some d) :
    c.dropStray = c := by
  have hkept : (c.superclass.bind fun _ => c.superEntry) = c.superEntry := by
    rw [hsuper, Option.bind_some]
  rw [dropStray, hkept]

/-- Errors from a stray entry come before the other errors of a class. -/
theorem typeErrors_eq_append (h : Hierarchy) :
    c.typeErrors h = c.strayErrors h ++ c.dropStray.typeErrors h := by
  cases hsuper : c.superclass with
  | none =>
    have hdropped : c.dropStray.checkInherited h = .ok () := by
      simp [checkInherited, dropStray, hsuper]
    rw [typeErrors, typeErrors, hdropped, strayErrors, hsuper]
    rfl
  | some d => simp [dropStray_of_superclass hsuper, strayErrors, hsuper]

end ClassDecl

namespace Program

variable (p : Program)

/-- The program without stray entries. -/
def dropStray : Program → Program
  | body main => body main
  | letIn classes decls main => letIn (classes.map ClassDecl.dropStray) decls main

/-- The type errors of a program that stray entries give rise to. -/
def strayErrors : List TypeError := p.classes.flatMap (ClassDecl.strayErrors · p.hierarchy)

@[simp] theorem classes_dropStray : p.dropStray.classes = p.classes.map ClassDecl.dropStray := by
  cases p <;> rfl

@[simp] theorem decls_dropStray : p.dropStray.decls = p.decls := by
  cases p <;> rfl

@[simp] theorem main_dropStray : p.dropStray.main = p.main := by
  cases p <;> rfl

@[simp] theorem hierarchy_dropStray : p.dropStray.hierarchy = p.hierarchy := by
  rw [hierarchy, classes_dropStray, List.foldl_map, hierarchy]
  congr 1
  funext h c
  cases hsuper : c.superclass with
  | none => simp [hierarchy.addClass, ClassDecl.dropStray, hsuper]
  | some d => rw [ClassDecl.dropStray_of_superclass hsuper]

theorem emit_dropStray (size : Nat) : p.dropStray.emit size = p.emit size := by
  have hall : ∀ (cs : List ClassDecl) n k tables,
      ClassDecl.emitAll size n k tables (cs.map ClassDecl.dropStray) =
        ClassDecl.emitAll size n k tables cs := by
    intro cs
    induction cs with
    | nil => exact fun n k tables => rfl
    | cons c cs ih =>
      intro n k tables
      rw [List.map_cons, ClassDecl.emitAll, ClassDecl.emitAll]
      simp only [ih]
      rfl
  cases p with
  | body main => rfl
  | letIn classes decls main =>
    have hmethods : (classes.map ClassDecl.dropStray).flatMap (·.methods) =
        classes.flatMap (·.methods) := List.flatMap_map ..
    simp only [dropStray, emit, hall, ClassDecl.labelCountAll, ClassDecl.blockCountAll, hmethods]

/-- Errors from stray entries come on top of the other ones. -/
theorem perm_declErrors : p.declErrors.Perm (p.strayErrors ++ p.dropStray.declErrors) := by
  simp only [declErrors, strayErrors, hierarchy_dropStray, classes_dropStray, decls_dropStray,
    List.flatMap_map]
  rw [← List.append_assoc]
  refine List.Perm.append_right _ ?_
  rw [List.flatMap_congr fun c _ => c.typeErrors_eq_append p.hierarchy]
  exact (List.flatMap_append_perm _ _ _).symm

theorem declErrors_dropStray (h : p.strayErrors = []) :
    p.dropStray.declErrors = p.declErrors := by
  rw [strayErrors, List.flatMap_eq_nil_iff] at h
  rw [declErrors, hierarchy_dropStray, classes_dropStray, decls_dropStray, List.flatMap_map,
    declErrors]
  congr 1
  refine List.flatMap_congr fun c hc => ?_
  rw [c.typeErrors_eq_append, h c hc, List.nil_append]

/-- The type checker notices stray entries exactly if they give rise to errors. -/
theorem check_dropStray_iff : p.dropStray.check = p.check ↔ p.strayErrors = [] := by
  constructor
  · intro h
    have hall : p.dropStray.typeErrors = p.typeErrors := by
      rw [check_eq, check_eq] at h
      split at h <;> split at h
      · simp_all
      · cases h
      · cases h
      · exact Except.error.inj h
    have hlength := p.perm_declErrors.length_eq
    have hsame := congrArg List.length hall
    simp only [typeErrors, hierarchy_dropStray, main_dropStray, List.length_append] at hlength hsame
    exact List.length_eq_zero_iff.1 (by omega)
  · intro h
    rw [check_eq, check_eq, typeErrors, declErrors_dropStray p h, hierarchy_dropStray,
      main_dropStray, typeErrors]

/-! ### Compilation -/

variable {p} {q : Program}

theorem bind_erase_of_nameErrors (hn : p.nameErrors = []) : p.erase.bind = p.bind.dropStray := by
  simp only [nameErrors, nameErrorsIn, List.append_eq_nil_iff] at hn
  cases p with
  | body main => exact congrArg body (Expr.bind_erase _ main)
  | letIn classes decls main =>
    have hbind : (letIn classes decls main).erase.bind =
        letIn (ClassDecl.bindAll (Env.empty.enter .empty) (classes.map ClassDecl.erase))
          (Decl.bindAll ((letIn classes decls main).erase.declEnv .empty) (Decl.eraseAll decls))
          (main.erase.bind ((letIn classes decls main).erase.mainEnv .empty)) := rfl
    rw [hbind, declEnv_erase, mainEnv_erase, ClassDecl.bindAll_erase classes hn.1.1,
      Decl.bindAll_eraseAll fun d _ => d.forgets, Expr.bind_erase]
    rfl

theorem map_strayEntry_bind :
    p.bind.classes.map ClassDecl.strayEntry = p.classes.map ClassDecl.strayEntry := by
  cases p with
  | body main => rfl
  | letIn classes decls main => exact ClassDecl.map_strayEntry_bindAll _ classes

theorem eq_of_dropStray_eq (hdrop : p.dropStray = q.dropStray) (hclasses : p.classes = q.classes) :
    p = q := by
  cases p <;> cases q <;> simp_all [dropStray, classes]

/-- Stray entries apart, a bound program does not depend on what was erased. -/
theorem bind_eq_of_strayEntry_eq (hn : p.nameErrors = []) (h : p.erase = q.erase)
    (hstray : p.classes.map ClassDecl.strayEntry = q.classes.map ClassDecl.strayEntry) :
    p.bind = q.bind := by
  have hn' : q.nameErrors = [] := by rw [← nameErrors_erase, ← h, nameErrors_erase, hn]
  have hdrop : p.bind.dropStray = q.bind.dropStray := by
    rw [← bind_erase_of_nameErrors hn, h, bind_erase_of_nameErrors hn']
  refine eq_of_dropStray_eq hdrop (ClassDecl.eq_of_map_dropStray_eq ?_ ?_)
  · rw [← classes_dropStray, hdrop, classes_dropStray]
  · rw [map_strayEntry_bind, map_strayEntry_bind, hstray]

variable (options : Options)

theorem compile_of_nameErrors (hn : p.nameErrors = []) :
    p.compile options =
      match p.bind.check, p.bind.emit options.emittedFor with
      | .error errors, _ => .error (.typing errors)
      | .ok _, .error e => .error (.emission e)
      | .ok ty, .ok code => .ok ⟨ty, code, options⟩ := by
  rw [compile, hn]
  cases p.bind.check with
  | error errors => rfl
  | ok ty => cases p.bind.emit options.emittedFor <;> rfl

theorem compile_of_nameErrors_ne (hn : p.nameErrors ≠ []) :
    p.compile options = .error (.naming p.nameErrors) := by
  rw [compile]
  split
  · contradiction
  · rfl

theorem compile_erase_iff (hn : p.nameErrors = []) :
    p.compile options = p.erase.compile options ↔ p.bind.strayErrors = [] := by
  have hn' : p.erase.nameErrors = [] := by rw [nameErrors_erase, hn]
  rw [compile_of_nameErrors options hn, compile_of_nameErrors options hn',
    bind_erase_of_nameErrors hn, emit_dropStray]
  refine ⟨fun h => (check_dropStray_iff p.bind).1 ?_, fun h => by
    rw [(check_dropStray_iff p.bind).2 h]⟩
  rw [check_eq, check_eq, hierarchy_dropStray, main_dropStray] at h ⊢
  generalize p.bind.emit options.emittedFor = code at h
  -- if just one of the trees has errors, the answers are of different kinds
  by_cases hkept : p.bind.typeErrors = [] <;>
    by_cases hdropped : p.bind.dropStray.typeErrors = [] <;> cases code <;> simp_all

/-- **What compilation depends on.**  Two trees that differ only in what name resolution may have
written into them compile to the same, to the same errors in the same order if there are any, unless
they differ in the entry that a class has for a superclass without having a superclass.  A tree
with such stray entries compiles to what it does with nothing written into it exactly if they give
rise to no type errors. -/
theorem compile_of_erase_eq (h : p.erase = q.erase) :
    (p.classes.map ClassDecl.strayEntry = q.classes.map ClassDecl.strayEntry →
        p.compile options = q.compile options) ∧
      (p.compile options = p.erase.compile options ↔
        (p.nameErrors = [] → p.bind.strayErrors = [])) := by
  have hnames : p.nameErrors = q.nameErrors := by
    rw [← nameErrors_erase, h, nameErrors_erase]
  by_cases hn : p.nameErrors = []
  · refine ⟨fun hstray => ?_, by simp only [hn, true_imp_iff, compile_erase_iff options hn]⟩
    rw [compile, compile, ← hnames, hn, bind_eq_of_strayEntry_eq hn h hstray]
  · have hn' : p.erase.nameErrors ≠ [] := by rwa [nameErrors_erase]
    refine ⟨fun _ => ?_, iff_of_true ?_ fun hnil => absurd hnil hn⟩
    · rw [compile_of_nameErrors_ne options hn, compile_of_nameErrors_ne options (hnames ▸ hn),
        hnames]
    · rw [compile_of_nameErrors_ne options hn, compile_of_nameErrors_ne options hn',
        nameErrors_erase]

/-- Two classes that have nothing to do with each other, except that the second one may have an
entry for a superclass. -/
def unrelated (superEntry : Option Entry) : Program :=
  .letIn
    [{ name := "Flag", fields := [⟨"set", .bool, 1, none⟩], methods := [] },
     { name := "Point", fields := [⟨"x", .int, 2, none⟩], methods := [], line := 2, superEntry }]
    [] (.new 3 "Point" [.int 3 7] none)

theorem compile_of_erase_eq_bind :
    let p := unrelated (some ⟨0, .shape ⟨[.int], []⟩, -2⟩)
    p.bind.erase = p.erase ∧ p.bind.compile .standard = p.compile .standard ∧
      p.bind.compile .standard = p.bind.erase.compile .standard := by
  obtain ⟨hsame, hiff⟩ := compile_of_erase_eq .standard
    (p := (unrelated (some ⟨0, .shape ⟨[.int], []⟩, -2⟩)).bind)
    (q := unrelated (some ⟨0, .shape ⟨[.int], []⟩, -2⟩)) rfl
  exact ⟨rfl, hsame rfl, hiff.2 fun _ => by decide⟩

/-- The stray entry of a class may make a program fail to compile that compiles without it. -/
theorem compile_depends_on_strayEntry :
    (unrelated none).erase = (unrelated (some ⟨0, .shape ⟨[.bool], []⟩, -2⟩)).erase ∧
      (unrelated none).compile .standard ≠
        (unrelated (some ⟨0, .shape ⟨[.bool], []⟩, -2⟩)).compile .standard := by
  refine ⟨rfl, fun h => ?_⟩
  have hn : (unrelated (some ⟨0, .shape ⟨[.bool], []⟩, -2⟩)).nameErrors = [] := by decide
  have hstray := (compile_erase_iff .standard hn).1 h.symm
  revert hstray
  decide

end Program

end ObjectLang
