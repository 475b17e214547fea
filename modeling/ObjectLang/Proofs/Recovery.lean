import ObjectLang.Proofs.Checked

/-!
# Type errors are recovered from

`Program.check` puts the errors of a program together from those of its parts.  Types can also be
checked in one pass over the tree that keeps a single list of errors.  A check that comes upon an
error or an unbound name is given up, with everything around it, up to the declaration that it
belongs to.  There an error is recorded, an unbound name is not, and the pass goes on to what comes
next.  Here is this pass, and both ways of checking agree (`Program.analyze_eq`).

Whatever has been recorded before, a part of the tree adds the same errors (`Analysis.Yields`).  So
the list of errors has a segment for every part, and to exchange one part for another changes
nothing but its segment (`Program.errors_compositional`).
-/

namespace ObjectLang

/-- A part of a pass: it may be given up, and it keeps a list of errors in any case. -/
abbrev Analysis := ExceptT Untyped (StateM (List TypeError))

namespace Analysis

variable {α β : Type}

/-- The outcome of a part and the errors after it, if there are errors before it. -/
def runFrom (part : Analysis α) (errors : List TypeError) : Except Untyped α × List TypeError :=
  StateT.run part.run errors

/-- A check that records nothing. -/
def ofOutcome (outcome : Except Untyped α) : Analysis α := ExceptT.mk (pure outcome)

/-- Record an error. -/
def record (error : TypeError) : Analysis Unit := modify (· ++ [error])

/-- Go on after a part that may be given up. -/
def recover (part : Analysis Unit) : Analysis Unit := do
  try part
  catch
    | .unbound => pure ()
    | .wrong error => record error

/-- One part after the other. -/
def each (check : α → Analysis Unit) : List α → Analysis Unit
  | [] => pure ()
  | a :: as => do
    check a
    each check as

/-- Whatever has been recorded before, the part has this outcome and adds these errors. -/
def Yields (part : Analysis α) (outcome : Except Untyped α) (errors : List TypeError) : Prop :=
  ∀ recorded, part.runFrom recorded = (outcome, recorded ++ errors)

theorem yields_ofOutcome (outcome : Except Untyped α) : Yields (ofOutcome outcome) outcome [] := by
  intro recorded
  rw [List.append_nil]
  rfl

theorem Yields.bind {x : Analysis α} {f : α → Analysis β} {a : α} {outcome : Except Untyped β}
    {errors errors' : List TypeError} (hx : Yields x (.ok a) errors)
    (hf : Yields (f a) outcome errors') : Yields (x >>= f) outcome (errors ++ errors') := by
  intro recorded
  have hfirst : StateT.run x.run recorded = (.ok a, recorded ++ errors) := hx recorded
  rw [runFrom, ExceptT.run_bind, StateT.run_bind, hfirst, ← List.append_assoc]
  exact hf (recorded ++ errors)

theorem Yields.recover {part : Analysis Unit} {outcome : Except Untyped Unit}
    {errors : List TypeError} (h : Yields part outcome errors) :
    Yields (recover part) (.ok ()) (errors ++ reported outcome) := by
  intro recorded
  have hpart : StateT.run part.run recorded = (outcome, recorded ++ errors) := h recorded
  rw [runFrom, Analysis.recover, ExceptT.run_tryCatch, StateT.run_bind, hpart, ← List.append_assoc]
  rcases outcome with (_ | error) | ⟨⟩
  · exact congrArg _ (List.append_nil _).symm
  · rfl
  · exact congrArg _ (List.append_nil _).symm

theorem yields_each {check : α → Analysis Unit} {errors : α → List TypeError} {as : List α}
    (h : ∀ a ∈ as, Yields (check a) (.ok ()) (errors a)) :
    Yields (each check as) (.ok ()) (as.flatMap errors) := by
  induction as with
  | nil => exact yields_ofOutcome (.ok ())
  | cons a as ih =>
    rw [List.flatMap_cons]
    exact (h a List.mem_cons_self).bind (ih fun a' ha' => h a' (List.mem_cons_of_mem a ha'))

end Analysis

open Analysis

/-! ### The pass -/

mutual

/-- Check a declaration. -/
def Decl.analyze (h : Hierarchy) : Decl → Analysis Unit
  | .var v => ofOutcome (v.check h)
  | .fn f => f.analyze h

/-- Check a routine: its local declarations first, then its body. -/
def Routine.analyze (h : Hierarchy) : Routine → Analysis Unit
  | ⟨name, _, ret, decls, body, line, _⟩ => do
    Decl.analyzeAll h decls
    ofOutcome (checkBody h name line ret body)

/-- Check several declarations, whatever comes of each. -/
def Decl.analyzeAll (h : Hierarchy) : List Decl → Analysis Unit
  | [] => pure ()
  | d :: ds => do
    recover (d.analyze h)
    Decl.analyzeAll h ds

end

/-- Check a class: what it overrides, then its methods, whatever comes of each. -/
def ClassDecl.analyze (h : Hierarchy) (c : ClassDecl) : Analysis Unit := do
  recover (ofOutcome (c.checkInherited h))
  each (fun m => recover (m.analyze h)) c.methods

namespace Program

variable (p : Program)

/-- Check a program: its classes, its declarations, then its expression. -/
def analysis : Analysis Ty := do
  each (ClassDecl.analyze p.hierarchy) p.classes
  Decl.analyzeAll p.hierarchy p.decls
  ofOutcome (p.main.infer p.hierarchy)

/-- The result of a pass over a program.  The expression is in no declaration, so that its error is
recorded at the end. -/
def analyze : Except (List TypeError) (Option Ty) :=
  match p.analysis.runFrom [] with
  | (.error (.wrong error), recorded) => .error (recorded ++ [error])
  | (.ok ty, []) => .ok (some ty)
  | (.error .unbound, []) => .ok none
  | (_, recorded) => .error recorded

end Program

/-! ### What the parts add -/

theorem Decl.analyzeAll_eq_each (h : Hierarchy) (ds : List Decl) :
    Decl.analyzeAll h ds = each (fun d => recover (d.analyze h)) ds := by
  induction ds with
  | nil => rw [Decl.analyzeAll, each]
  | cons d ds ih => rw [Decl.analyzeAll, each, ih]

/-- The errors of a routine are those of its local declarations and at most one of its own. -/
theorem Routine.typeErrors_eq (h : Hierarchy) (f : Routine) : f.typeErrors h =
    f.decls.flatMap (Decl.typeErrors h) ++ reported (checkBody h f.name f.line f.ret f.body) := by
  rw [← Decl.typeErrorsAll_eq_flatMap]
  cases f
  rw [Routine.typeErrors]

theorem Routine.yields_of_decls {h : Hierarchy} {f : Routine}
    (hds : ∀ d ∈ f.decls, Yields (recover (d.analyze h)) (.ok ()) (d.typeErrors h)) :
    Yields (recover (f.analyze h)) (.ok ()) (f.typeErrors h) := by
  have hf : f.analyze h = (do
      each (fun d => recover (d.analyze h)) f.decls
      ofOutcome (checkBody h f.name f.line f.ret f.body)) := by
    cases f
    rw [Routine.analyze, Decl.analyzeAll_eq_each]
  have hbody := (yields_each hds).bind (f := fun _ => _)
    (yields_ofOutcome (checkBody h f.name f.line f.ret f.body))
  rw [List.append_nil, ← hf] at hbody
  rw [f.typeErrors_eq]
  exact hbody.recover

theorem Decl.yields_recover (h : Hierarchy) (d : Decl) :
    Yields (recover (d.analyze h)) (.ok ()) (d.typeErrors h) := by
  induction d using Decl.ind with
  | var v =>
    rw [Decl.analyze, Decl.typeErrors]
    exact (yields_ofOutcome (v.check h)).recover
  | fn f ih =>
    rw [Decl.analyze, Decl.typeErrors]
    exact f.yields_of_decls ih

theorem Routine.yields_recover (h : Hierarchy) (f : Routine) :
    Yields (recover (f.analyze h)) (.ok ()) (f.typeErrors h) :=
  f.yields_of_decls fun d _ => d.yields_recover h

theorem ClassDecl.yields_analyze (h : Hierarchy) (c : ClassDecl) :
    Yields (c.analyze h) (.ok ()) (c.typeErrors h) :=
  (yields_ofOutcome (c.checkInherited h)).recover.bind
    (yields_each fun m _ => m.yields_recover h)

namespace Program

variable (p : Program)

theorem yields_analysis :
    Yields p.analysis (p.main.infer p.hierarchy) p.declErrors := by
  have hclasses : Yields (each (ClassDecl.analyze p.hierarchy) p.classes) (.ok ())
      (p.classes.flatMap (ClassDecl.typeErrors p.hierarchy)) :=
    yields_each fun c _ => c.yields_analyze p.hierarchy
  have hdecls : Yields (Decl.analyzeAll p.hierarchy p.decls) (.ok ())
      (Decl.typeErrorsAll p.hierarchy p.decls) := by
    rw [Decl.analyzeAll_eq_each, Decl.typeErrorsAll_eq_flatMap]
    exact yields_each fun d _ => d.yields_recover p.hierarchy
  have hmain := hdecls.bind (f := fun _ => _) (yields_ofOutcome (p.main.infer p.hierarchy))
  rw [List.append_nil] at hmain
  exact hclasses.bind hmain

/-- The pass reports what the parts of the tree report. -/
theorem analyze_eq : p.analyze = p.check := by
  rw [check_eq, analyze, typeErrors, p.yields_analysis [], List.nil_append]
  rcases p.main.infer p.hierarchy with (_ | error) | ty <;>
    cases p.declErrors <;> simp [reported, Except.toOption]

theorem typeErrors_eq : p.typeErrors =
    p.classes.flatMap (ClassDecl.typeErrors p.hierarchy) ++
      p.decls.flatMap (Decl.typeErrors p.hierarchy) ++ reported (p.main.infer p.hierarchy) := by
  rw [← Decl.typeErrorsAll_eq_flatMap]
  rfl

theorem check_eq_error_iff {errors : List TypeError} :
    p.check = .error errors ↔ errors = p.typeErrors ∧ errors ≠ [] := by
  rw [check_eq]
  split
  · simp_all
  · rename_i hne
    rw [Except.error.injEq, eq_comm]
    exact ⟨fun h => ⟨h, h ▸ hne⟩, And.left⟩

theorem check_eq_ok_none_iff :
    p.check = .ok none ↔ p.typeErrors = [] ∧ p.main.infer p.hierarchy = .error .unbound := by
  rw [check_eq, typeErrors]
  rcases p.main.infer p.hierarchy with (_ | error) | ty <;>
    cases p.declErrors <;> simp [reported, Except.toOption]

theorem exists_not_isFilled (h : p.main.infer p.hierarchy = .error .unbound) :
    ∃ n ∈ p.main.notes, n.isFilled = false := by
  refine Classical.byContradiction fun hnone => p.main.isBound_of_isFilled (fun n hn => ?_) h
  exact eq_true_of_ne_false fun hempty => hnone ⟨n, hn, hempty⟩

/-- Where no error is found, an unbound name is found exactly if there is one. -/
theorem infer_eq_unbound_iff (hr : reported (p.main.infer p.hierarchy) = []) :
    p.main.infer p.hierarchy = .error .unbound ↔ ∃ n ∈ p.main.notes, n.isFilled = false := by
  refine ⟨p.exists_not_isFilled, ?_⟩
  rintro ⟨n, hn, hempty⟩
  by_contra hbound
  obtain ⟨ty, hty⟩ := IsBound.ok_of_reported hbound hr
  rw [Expr.isFilled_of_infer hty n hn] at hempty
  cases hempty

theorem check_eq_ok_none_iff_notes :
    p.check = .ok none ↔ p.typeErrors = [] ∧ ∃ n ∈ p.main.notes, n.isFilled = false := by
  rw [check_eq_ok_none_iff]
  refine and_congr_right fun hnone => p.infer_eq_unbound_iff ?_
  exact (List.append_eq_nil_iff.1 hnone).2

end Program

/-! ### Exchanging a part -/

/-- A part of a program that has errors of its own. -/
inductive Part where
  | cls (c : ClassDecl)
  | routine (f : Routine)
  | decl (d : Decl)

namespace Part

/-- Check a part, whatever comes of it. -/
def analyze (h : Hierarchy) : Part → Analysis Unit
  | cls c => c.analyze h
  | routine f => recover (f.analyze h)
  | decl d => recover (d.analyze h)

/-- The type errors of a part. -/
def typeErrors (h : Hierarchy) : Part → List TypeError
  | cls c => c.typeErrors h
  | routine f => f.typeErrors h
  | decl d => d.typeErrors h

theorem yields_analyze (h : Hierarchy) (part : Part) :
    Yields (part.analyze h) (.ok ()) (part.typeErrors h) := by
  cases part with
  | cls c => exact c.yields_analyze h
  | routine f => exact f.yields_recover h
  | decl d => exact d.yields_recover h

/-- The second part is the first one with `b` instead of `a` at one place in it. -/
inductive Exchange (a b : Part) : Part → Part → Prop where
  | here : Exchange a b a b
  | fn {f g : Routine} : Exchange a b (.routine f) (.routine g) →
      Exchange a b (.decl (.fn f)) (.decl (.fn g))
  | inner (f : Routine) (before after : List Decl) {d e : Decl} :
      Exchange a b (.decl d) (.decl e) →
      Exchange a b (.routine { f with decls := before ++ d :: after })
        (.routine { f with decls := before ++ e :: after })
  | method (c : ClassDecl) (before after : List Routine) {f g : Routine} :
      Exchange a b (.routine f) (.routine g) →
      Exchange a b (.cls { c with methods := before ++ f :: after })
        (.cls { c with methods := before ++ g :: after })

end Part

/-- The second program is the first one with `b` instead of `a` at one place in it. -/
inductive Program.Exchange (a b : Part) : Program → Program → Prop where
  | cls (before after : List ClassDecl) {c d : ClassDecl} (decls : List Decl) (main : Expr) :
      Part.Exchange a b (.cls c) (.cls d) →
      Exchange a b (.letIn (before ++ c :: after) decls main)
        (.letIn (before ++ d :: after) decls main)
  | decl (classes : List ClassDecl) (before after : List Decl) {d e : Decl} (main : Expr) :
      Part.Exchange a b (.decl d) (.decl e) →
      Exchange a b (.letIn classes (before ++ d :: after) main)
        (.letIn classes (before ++ e :: after) main)

/-- Lists of errors that are the same but for one segment. -/
def SameBut (own own' errors errors' : List TypeError) : Prop :=
  ∃ before after, errors = before ++ own ++ after ∧ errors' = before ++ own' ++ after

namespace SameBut

variable {own own' errors errors' : List TypeError}

theorem refl : SameBut own own' own own' := ⟨[], [], by simp, by simp⟩

theorem append_left (h : SameBut own own' errors errors') (left : List TypeError) :
    SameBut own own' (left ++ errors) (left ++ errors') := by
  obtain ⟨before, after, rfl, rfl⟩ := h
  exact ⟨left ++ before, after, by simp, by simp⟩

theorem append_right (h : SameBut own own' errors errors') (right : List TypeError) :
    SameBut own own' (errors ++ right) (errors' ++ right) := by
  obtain ⟨before, after, rfl, rfl⟩ := h
  exact ⟨before, after ++ right, by simp, by simp⟩

theorem flatMap {α : Type} {f : α → List TypeError} {a b : α} (h : SameBut own own' (f a) (f b))
    (before after : List α) :
    SameBut own own' ((before ++ a :: after).flatMap f) ((before ++ b :: after).flatMap f) := by
  simp only [List.flatMap_append, List.flatMap_cons]
  exact (h.append_right _).append_left _

end SameBut

namespace ClassDecl

variable {h : Hierarchy} {c d : ClassDecl}

theorem checkFields_congr (hname : c.name = d.name) (hline : c.line = d.line) (index : Nat)
    (inherited own : List Ty) :
    c.checkFields h index inherited own = d.checkFields h index inherited own := by
  induction inherited generalizing index own with
  | nil => rfl
  | cons expected inherited ih =>
    cases own with
    | nil => rfl
    | cons found own => rw [checkFields, checkFields, ih, hname, hline]

theorem checkMethods_congr (hname : c.name = d.name) (hline : c.line = d.line) (index : Nat)
    (inherited own : List Signature) :
    c.checkMethods h index inherited own = d.checkMethods h index inherited own := by
  induction inherited generalizing index own with
  | nil => rfl
  | cons expected inherited ih =>
    cases own with
    | nil => rfl
    | cons found own => rw [checkMethods, checkMethods, ih, hname, hline]

/-- What a class overrides is checked without its methods, of which only the types count. -/
theorem typeErrors_methods (methods : List Routine) :
    typeErrors h { c with methods } =
      reported (c.checkInherited h) ++ methods.flatMap (Routine.typeErrors h) := by
  have hinherited : checkInherited h { c with methods } = c.checkInherited h := by
    unfold checkInherited
    simp only [checkFields_congr (c := { c with methods }) (d := c) rfl rfl,
      checkMethods_congr (c := { c with methods }) (d := c) rfl rfl]
  rw [typeErrors, hinherited]

end ClassDecl

theorem Part.Exchange.sameBut {a b x y : Part} (hxy : Exchange a b x y) (h : Hierarchy) :
    SameBut (a.typeErrors h) (b.typeErrors h) (x.typeErrors h) (y.typeErrors h) := by
  induction hxy with
  | here => exact .refl
  | fn _ ih =>
    simp only [Part.typeErrors, Decl.typeErrors] at ih ⊢
    exact ih
  | inner _ _ _ _ ih =>
    change SameBut _ _ (Routine.typeErrors h _) (Routine.typeErrors h _)
    rw [Routine.typeErrors_eq, Routine.typeErrors_eq]
    exact (SameBut.flatMap (f := Decl.typeErrors h) ih _ _).append_right _
  | method _ _ _ _ ih =>
    change SameBut _ _ (ClassDecl.typeErrors h _) (ClassDecl.typeErrors h _)
    rw [ClassDecl.typeErrors_methods, ClassDecl.typeErrors_methods]
    exact (SameBut.flatMap (f := Routine.typeErrors h) ih _ _).append_left _

theorem Program.Exchange.sameBut {a b : Part} {p q : Program} (hpq : Exchange a b p q)
    (hsame : q.hierarchy = p.hierarchy) :
    SameBut (a.typeErrors p.hierarchy) (b.typeErrors p.hierarchy) p.typeErrors q.typeErrors := by
  rw [p.typeErrors_eq, q.typeErrors_eq, hsame]
  generalize p.hierarchy = h
  cases hpq with
  | cls _ _ _ _ hparts =>
    exact ((SameBut.flatMap (f := ClassDecl.typeErrors h) (hparts.sameBut h) _ _).append_right
      _).append_right _
  | decl _ _ _ _ hparts =>
    exact ((SameBut.flatMap (f := Decl.typeErrors h) (hparts.sameBut h) _ _).append_left
      _).append_right _

/-! ### Errors are compositional -/

/-- How the errors of a part are made up of those of the parts in it. -/
structure Hierarchy.Composes (h : Hierarchy) : Prop where
  /-- A class has at most one error about what it overrides, then those of its methods. -/
  cls : ∀ c : ClassDecl, (reported (c.checkInherited h)).length ≤ 1 ∧
    c.typeErrors h = reported (c.checkInherited h) ++ c.methods.flatMap (Routine.typeErrors h)
  /-- A routine has those of its local declarations, then at most one about its body. -/
  routine : ∀ f : Routine, (reported (checkBody h f.name f.line f.ret f.body)).length ≤ 1 ∧
    f.typeErrors h =
      f.decls.flatMap (Decl.typeErrors h) ++ reported (checkBody h f.name f.line f.ret f.body)
  /-- A function has the errors of its routine. -/
  fn : ∀ f : Routine, (Decl.fn f).typeErrors h = f.typeErrors h
  /-- A variable has at most one error. -/
  var : ∀ v : Variable, ((Decl.var v).typeErrors h).length ≤ 1

theorem length_reported_le {α : Type} (outcome : Except Untyped α) :
    (reported outcome).length ≤ 1 := by
  rcases outcome with (_ | error) | a <;> simp [reported]

theorem Hierarchy.composes (h : Hierarchy) : h.Composes where
  cls _ := ⟨length_reported_le _, rfl⟩
  routine f := ⟨length_reported_le _, f.typeErrors_eq h⟩
  fn f := by rw [Decl.typeErrors]
  var v := by
    rw [Decl.typeErrors]
    exact length_reported_le _

namespace Program

/-- **Errors are compositional.**  Those of a program are the errors of its classes, its
declarations and its expression, one after the other, whatever names are bound in it.  Each part
adds its own, whatever has been recorded before, and exchanging it for another one changes only
these.  The type of a program is unknown if nothing is reported and a name in its expression turns
out to be unbound, which is so exactly if nothing is reported and some name in it is not bound. -/
theorem errors_compositional (p : Program) :
    p.analyze = p.check ∧
      (∀ errors, p.check = .error errors ↔ errors = p.typeErrors ∧ errors ≠ []) ∧
      p.typeErrors = p.classes.flatMap (ClassDecl.typeErrors p.hierarchy) ++
        p.decls.flatMap (Decl.typeErrors p.hierarchy) ++ reported (p.main.infer p.hierarchy) ∧
      (∀ part : Part, Yields (part.analyze p.hierarchy) (.ok ()) (part.typeErrors p.hierarchy)) ∧
      p.hierarchy.Composes ∧
      (p.check = .ok none ↔ p.typeErrors = [] ∧ p.main.infer p.hierarchy = .error .unbound) ∧
      (p.main.infer p.hierarchy = .error .unbound → ∃ n ∈ p.main.notes, n.isFilled = false) ∧
      (p.check = .ok none ↔ p.typeErrors = [] ∧ ∃ n ∈ p.main.notes, n.isFilled = false) ∧
      ∀ (a b : Part) (q : Program), Exchange a b p q → q.hierarchy = p.hierarchy →
        SameBut (a.typeErrors p.hierarchy) (b.typeErrors p.hierarchy) p.typeErrors q.typeErrors :=
  ⟨p.analyze_eq, fun _ => p.check_eq_error_iff, p.typeErrors_eq, Part.yields_analyze p.hierarchy,
    p.hierarchy.composes, p.check_eq_ok_none_iff, p.exists_not_isFilled,
    p.check_eq_ok_none_iff_notes, fun _ _ _ hpq hsame => hpq.sameBut hsame⟩

/-- A variable that is set to a number. -/
def numbered (ty : Ty) : Decl := .var { name := "x", ty, init := .int 0 1 }

/-- A function with such a variable in it and with an error of its own. -/
def numberedFn (ty : Ty) : Routine :=
  { name := "f", params := [], ret := .bool, decls := [numbered ty], body := .int 0 1 }

/-- A method with such a function in it and with an unbound name. -/
def numberedMethod (ty : Ty) : Routine :=
  { name := "m", params := [], ret := .int, decls := [.fn (numberedFn ty)],
    body := .ident 0 "y" none }

/-- A program with such a method in it and with an unbound name. -/
def numberedProgram (ty : Ty) : Program :=
  .letIn [{ name := "C", fields := [], methods := [numberedMethod ty] }] [numbered .bool]
    (.ident 0 "y" none)

theorem errors_compositional_nested :
    Exchange (.decl (numbered .bool)) (.decl (numbered .int)) (numberedProgram .bool)
        (numberedProgram .int) ∧
      (numberedProgram .bool).typeErrors = [⟨.initNotOfType "x" .bool .int, 0⟩,
        ⟨.bodyNotOfType "f" .bool .int, 0⟩, ⟨.initNotOfType "x" .bool .int, 0⟩] ∧
      (numberedProgram .int).typeErrors =
        [⟨.bodyNotOfType "f" .bool .int, 0⟩, ⟨.initNotOfType "x" .bool .int, 0⟩] ∧
      SameBut [⟨.initNotOfType "x" .bool .int, 0⟩] [] (numberedProgram .bool).typeErrors
        (numberedProgram .int).typeErrors := by
  have hfn : Part.Exchange (.decl (numbered .bool)) (.decl (numbered .int))
      (.routine (numberedFn .bool)) (.routine (numberedFn .int)) :=
    .inner (numberedFn .bool) [] [] .here
  have hmethod : Part.Exchange (.decl (numbered .bool)) (.decl (numbered .int))
      (.routine (numberedMethod .bool)) (.routine (numberedMethod .int)) :=
    .inner (numberedMethod .bool) [] [] (.fn hfn)
  have hexchange : Exchange (.decl (numbered .bool)) (.decl (numbered .int))
      (numberedProgram .bool) (numberedProgram .int) :=
    .cls [] [] _ _ (.method { name := "C", fields := [], methods := [] } [] [] hmethod)
  obtain ⟨-, -, -, -, -, -, -, -, hsegment⟩ := errors_compositional (numberedProgram .bool)
  exact ⟨hexchange, rfl, rfl, hsegment _ _ _ hexchange rfl⟩

end Program

end ObjectLang
