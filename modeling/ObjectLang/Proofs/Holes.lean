import ObjectLang.Proofs.Checked
import ObjectLang.Proofs.Erasure
import ObjectLang.Tree.Notes
import Mathlib.Data.List.Forall2

/-!
# Every hole in a resolved tree is reported

Name resolution goes through the whole tree whatever it finds.  Declarations get their places in any
case; a use of a name may be left without a binding.  Such a hole is reported once, at its place
among the errors: the errors about uses and the holes of the tree, both in order, belong together
one by one (`Program.holes_bindIn`).  Where nothing is reported, type checking comes upon no unbound
name (`Expr.isBound_infer`).

Notes and errors are lists that are made in step, part by part.  `Accounts` says of such a pair that
the errors account for the notes, and is kept when both are continued (`Accounts.append`).
-/

namespace ObjectLang

namespace Note

/-- Is it the note of a declaration? -/
def isDeclaration : Note → Bool
  | cls _ _ _ | field _ _ | param _ _ | method _ _ _ | var _ _ _ | fn _ _ _ _ => true
  | ident _ _ _ | call _ _ _ | send _ _ _ _ | new _ _ _ => false

/-- Is it a use of a variable, a function or a method that is not bound? -/
def isHole : Note → Bool
  | ident _ _ binding | call _ _ binding => binding.isNone
  | send _ _ _ binding => binding.isNone
  | _ => false

/-- The error is about the hole: it is at the same line and has the name that is used. -/
inductive ReportedBy : Note → NameError → Prop where
  | ident (line : SourceLine) (name : String) :
      ReportedBy (.ident line name none) ⟨.unknownName .var name, line⟩
  | call (line : SourceLine) (name : String) :
      ReportedBy (.call line name none) ⟨.unknownName .fn name, line⟩
  | receiver (line : SourceLine) (receiver method : String) :
      ReportedBy (.send line receiver method none) ⟨.unknownName .object receiver, line⟩
  | notObject (line : SourceLine) (receiver method : String) :
      ReportedBy (.send line receiver method none) ⟨.receiverNotObject receiver, line⟩
  | noMethod (line : SourceLine) (receiver method : String) :
      ReportedBy (.send line receiver method none) ⟨.noSuchMethod receiver method, line⟩

theorem isHole_of_isFilled {n : Note} (h : n.isFilled = true) : n.isHole = false := by
  cases n with
  | ident _ _ binding | call _ _ binding | send _ _ _ binding =>
    cases binding with
    | none => cases h
    | some _ => rfl
  | _ => rfl

end Note

/-- Is the fault that a variable, a function or a method is used where there is none? -/
def NameFault.isUse : NameFault → Bool
  | unknownName _ _ | noSuchMethod _ _ | receiverNotObject _ => true
  | declaredTwice _ _ | unknownClass _ | unknownSuperclass _ | kindClash _ _ _ => false

/-- The errors account for all that is missing in the notes. -/
structure Accounts (notes : List Note) (errors : List NameError) : Prop where
  /-- No declaration is left without its place. -/
  declarations : ∀ n ∈ notes, n.isDeclaration = true → n.isFilled = true
  /-- The holes, and nothing else, are reported in their order. -/
  holes : List.Forall₂ Note.ReportedBy (notes.filter Note.isHole)
    (errors.filter fun e => e.fault.isUse)
  /-- An object of an unknown class is reported. -/
  constructions : ∀ line cls, Note.new line cls none ∈ notes → ⟨.unknownClass cls, line⟩ ∈ errors

namespace Accounts

variable {notes notes' : List Note} {errors errors' : List NameError}

theorem append (h : Accounts notes errors) (h' : Accounts notes' errors') :
    Accounts (notes ++ notes') (errors ++ errors') where
  declarations := List.forall_mem_append.2 ⟨h.declarations, h'.declarations⟩
  holes := by
    rw [List.filter_append, List.filter_append]
    exact List.rel_append h.holes h'.holes
  constructions line cls hnew := by
    rw [List.mem_append] at hnew ⊢
    exact hnew.imp (h.constructions line cls) (h'.constructions line cls)

theorem flatMap {α : Type} {as : List α} {f : α → List Note} {g : α → List NameError}
    (h : ∀ a ∈ as, Accounts (f a) (g a)) : Accounts (as.flatMap f) (as.flatMap g) := by
  induction as with
  | nil => exact ⟨by simp, .nil, by simp⟩
  | cons a as ih =>
    rw [List.forall_mem_cons] at h
    rw [List.flatMap_cons, List.flatMap_cons]
    exact h.1.append (ih h.2)

/-- Where nothing is missing, only declarations can be wrong. -/
theorem settled (hnotes : ∀ n ∈ notes, n.isFilled = true)
    (herrors : ∀ e ∈ errors, e.fault.isUse = false) : Accounts notes errors where
  declarations n hn _ := hnotes n hn
  holes := by
    have hholes : notes.filter Note.isHole = [] := by
      refine List.filter_eq_nil_iff.2 fun n hn => ?_
      rw [Note.isHole_of_isFilled (hnotes n hn)]
      exact Bool.false_ne_true
    have huses : errors.filter (fun e => e.fault.isUse) = [] := by
      refine List.filter_eq_nil_iff.2 fun e he => ?_
      rw [herrors e he]
      exact Bool.false_ne_true
    rw [hholes, huses]
    exact .nil
  constructions line cls hnew := nomatch hnotes _ hnew

theorem filled {n : Note} (h : n.isFilled = true) : Accounts [n] [] :=
  settled (by simpa using h) (by simp)

theorem hole {n : Note} {e : NameError} (h : n.ReportedBy e) : Accounts [n] [e] := by
  have hlists : [n].filter Note.isHole = [n] ∧ [e].filter (fun e => e.fault.isUse) = [e] := by
    cases h <;> exact ⟨rfl, rfl⟩
  refine ⟨by cases h <;> simp [Note.isDeclaration], ?_, by cases h <;> simp⟩
  rw [hlists.1, hlists.2]
  exact .cons h .nil

/-- The construction of an object is a use of a class, which is reported like the mention of one. -/
theorem construction (line : SourceLine) (cls : String) :
    Accounts [.new line cls none] [⟨.unknownClass cls, line⟩] where
  declarations := by simp [Note.isDeclaration]
  holes := .nil
  constructions := by simp

/-- Where nothing is reported, nothing is missing. -/
theorem isFilled (h : Accounts notes []) : ∀ n ∈ notes, n.isFilled = true := by
  have hholes : ∀ n ∈ notes, ¬ n.isHole = true :=
    List.filter_eq_nil_iff.1 (List.forall₂_nil_right_iff.1 h.holes)
  intro n hn
  cases n with
  | cls | field | param | method | var | fn => exact h.declarations _ hn rfl
  | ident _ _ binding | call _ _ binding | send _ _ _ binding =>
    cases binding with
    | none => exact absurd rfl (hholes _ hn)
    | some _ => rfl
  | new line cls entry =>
    cases entry with
    | none => cases h.constructions line cls hn
    | some _ => rfl

end Accounts

/-! ### Uses -/

namespace Env

variable (env : Env)

theorem accounts_ident (line : SourceLine) (name : String) :
    Accounts [.ident line name (env.binding? name)] (env.useErrors .var name line) := by
  unfold binding? useErrors
  cases env.scopes.lookup name with
  | none => exact .hole (.ident line name)
  | some entry => exact .filled rfl

theorem accounts_call (line : SourceLine) (name : String) :
    Accounts [.call line name (env.binding? name)] (env.useErrors .fn name line) := by
  unfold binding? useErrors
  cases env.scopes.lookup name with
  | none => exact .hole (.call line name)
  | some entry => exact .filled rfl

/-- A method call that is not bound is so for one of three reasons. -/
theorem reportedBy_of_methodBinding {receiver method : String} {fault : NameFault}
    (h : env.methodBinding receiver method = .error fault) (line : SourceLine) :
    Note.ReportedBy (.send line receiver method none) ⟨fault, line⟩ := by
  unfold methodBinding at h
  split at h
  · cases h
    exact .receiver line receiver method
  · split at h
    · split at h
      · cases h
        exact .noMethod line receiver method
      · cases h
    · cases h
      exact .notObject line receiver method

theorem accounts_send (line : SourceLine) (receiver method : String) :
    Accounts [.send line receiver method (env.methodBinding? receiver method)]
      (env.sendErrors receiver method line) := by
  unfold methodBinding? sendErrors
  cases h : env.methodBinding receiver method with
  | error fault => exact .hole (env.reportedBy_of_methodBinding h line)
  | ok binding => exact .filled rfl

theorem accounts_new (line : SourceLine) (cls : String) :
    Accounts [.new line cls (env.classes.entry? cls)] (env.newErrors cls line) := by
  unfold newErrors
  cases env.classes.entry? cls with
  | none => exact .construction line cls
  | some entry => exact .filled rfl

end Env

theorem Expr.accounts_all {env : Env} {es : List Expr}
    (hs : ∀ e ∈ es, Accounts (e.bind env).notes (e.nameErrors env)) :
    Accounts (Expr.notesAll (Expr.bindAll env es)) (Expr.nameErrorsAll env es) := by
  rw [notesAll_eq_flatMap, bindAll_eq_map, nameErrorsAll_eq_flatMap, List.flatMap_map]
  exact .flatMap hs

/-- The notes of an expression come in the order in which its uses are looked up. -/
theorem Expr.accounts_bind (env : Env) (e : Expr) :
    Accounts (e.bind env).notes (e.nameErrors env) := by
  induction e using Expr.ind with
  | int | bool | null =>
    exact .settled (by simp [Expr.bind, Expr.notes]) (by simp [Expr.nameErrors])
  | arith line op l r hl hr | compare line op l r hl hr | logic line op l r hl hr =>
    exact hl.append hr
  | not line e he | print line e he => exact he
  | cond line c t f hc ht hf => exact (hc.append ht).append hf
  | ident line name b => exact env.accounts_ident line name
  | call line name args b hargs =>
    exact (env.accounts_call line name).append (accounts_all hargs)
  | send line receiver method args b hargs =>
    exact (env.accounts_send line receiver method).append (accounts_all hargs)
  | new line cls args entry hargs =>
    exact (env.accounts_new line cls).append (accounts_all hargs)

theorem Expr.isBound_infer {h : Hierarchy} {env : Env} (e : Expr) (hn : e.nameErrors env = []) :
    IsBound ((e.bind env).infer h) := by
  refine (e.bind env).isBound_of_isFilled (Accounts.isFilled ?_)
  rw [← hn]
  exact e.accounts_bind env

/-! ### Errors about declarations -/

theorem isUse_ite {c : Prop} [Decidable c] {fault : NameFault} (line : SourceLine)
    (h : fault.isUse = false) :
    ∀ e ∈ (if c then [(⟨fault, line⟩ : NameError)] else []), e.fault.isUse = false := by
  split <;> simp [h]

namespace Env

variable (env : Env)

theorem isUse_typeErrors (ty : Ty) (line : SourceLine) :
    ∀ e ∈ env.typeErrors ty line, e.fault.isUse = false := by
  simp only [typeErrors, List.forall_mem_map]
  exact fun _ _ => rfl

theorem isUse_signatureErrors (params : List TypedName) (ret : Ty) (line : SourceLine) :
    ∀ e ∈ env.signatureErrors params ret line, e.fault.isUse = false := by
  simp only [signatureErrors, List.forall_mem_append, List.forall_mem_flatMap]
  exact ⟨fun p _ => env.isUse_typeErrors _ _, env.isUse_typeErrors _ _⟩

theorem isUse_paramErrors (line : SourceLine) (offset : Int) (params : List TypedName) :
    ∀ e ∈ env.paramErrors line offset params, e.fault.isUse = false := by
  induction params generalizing env offset with
  | nil => simp [paramErrors]
  | cons p ps ih =>
    rw [paramErrors, List.forall_mem_append]
    exact ⟨isUse_ite _ rfl, ih _ _⟩

theorem isUse_fieldErrors (cls : String) (level : Nat) (declared : List String) (l : Layout)
    (fs : List TypedName) :
    ∀ e ∈ env.fieldErrors cls level declared l fs, e.fault.isUse = false := by
  induction fs generalizing declared l with
  | nil => simp [fieldErrors]
  | cons f fs ih =>
    simp only [fieldErrors, List.forall_mem_append]
    exact ⟨⟨⟨env.isUse_typeErrors _ _, isUse_ite _ rfl⟩, isUse_ite _ rfl⟩, ih _ _⟩

theorem isUse_methodErrors (cls : String) (level : Nat) (declared : List String) (l : Layout)
    (ms : List Routine) :
    ∀ e ∈ env.methodErrors cls level declared l ms, e.fault.isUse = false := by
  induction ms generalizing declared l with
  | nil => simp [methodErrors]
  | cons m ms ih =>
    simp only [methodErrors, List.forall_mem_append]
    exact ⟨⟨⟨env.isUse_signatureErrors _ _ _, isUse_ite _ rfl⟩, isUse_ite _ rfl⟩, ih _ _⟩

end Env

/-- Layout and declaration of a class use no names but those of classes. -/
theorem ClassDecl.isUse_declErrors (env : Env) (c : ClassDecl) :
    ∀ e ∈ c.superclassErrors env ++ c.memberErrors env ++ env.classDeclaredTwice c.name c.line,
      e.fault.isUse = false := by
  simp only [memberErrors, List.forall_mem_append]
  refine ⟨⟨?_, Env.isUse_fieldErrors _ _ _ _ _ _, Env.isUse_methodErrors _ _ _ _ _ _⟩,
    isUse_ite _ rfl⟩
  unfold superclassErrors
  split
  · simp
  · split <;> simp [NameFault.isUse]

/-! ### Declarations -/

theorem isFilled_param (offset : Int) (params : List TypedName) :
    ∀ n ∈ (placeParams offset params).map (fun p => Note.param p.name p.offset),
      n.isFilled = true := by
  induction params generalizing offset with
  | nil => simp [placeParams]
  | cons p ps ih => exact List.forall_mem_cons.2 ⟨rfl, ih _⟩

theorem Decl.accounts_all {ds : List Decl}
    (hs : ∀ d ∈ ds, ∀ env, Accounts (d.bind env).notes (d.nameErrors env)) (env : Env) :
    Accounts (Decl.notesAll (Decl.bindAll env ds)) (Decl.nameErrorsAll env ds) := by
  induction ds generalizing env with
  | nil => exact .settled (by simp [bindAll, notesAll]) (by simp [nameErrorsAll])
  | cons d ds ih =>
    rw [List.forall_mem_cons] at hs
    exact (hs.1 env).append (ih hs.2 _)

theorem Routine.accounts_of_decls {f : Routine}
    (hs : ∀ d ∈ f.decls, ∀ env, Accounts (d.bind env).notes (d.nameErrors env)) (env : Env) :
    Accounts (f.bindInner env).inner (f.innerErrors env) := by
  obtain ⟨name, params, ret, decls, body, line, offset⟩ := f
  have hparams := Accounts.settled (isFilled_param firstParam params)
    ((env.enter .empty).isUse_paramErrors line firstParam params)
  exact (hparams.append (Decl.accounts_all hs _)).append (body.accounts_bind _)

theorem Routine.inner_offset (f : Routine) (offset : Option Int) :
    Routine.inner { f with offset := offset } = f.inner := by
  cases f
  simp only [Routine.inner]

theorem Decl.accounts_bind (env : Env) (d : Decl) :
    Accounts (d.bind env).notes (d.nameErrors env) := by
  induction d using Decl.ind generalizing env with
  | var v =>
    have hplace : Accounts [.var v.name v.line (some env.nextLocal)] (env.typeErrors v.ty v.line) :=
      .settled (by simp [Note.isFilled]) (env.isUse_typeErrors _ _)
    -- the variable is declared after its initial value, so this error comes last
    have htwice : Accounts [] (env.declaredTwice .var v.name v.line) :=
      .settled (by simp) (isUse_ite _ rfl)
    have hall := (hplace.append (v.init.accounts_bind env)).append htwice
    rwa [List.append_nil] at hall
  | fn f hf =>
    rw [Decl.bind, Decl.notes, Routine.inner_offset, Decl.nameErrors]
    -- for any name and signature: those of the note are read off the bound function
    have hplace (name : String) (signature : Signature) (line : SourceLine) :
        Accounts [.fn name signature line (some env.nextLocal)]
          (env.signatureErrors f.params f.ret f.line ++ env.declaredTwice .fn f.name f.line) :=
      .settled (by simp [Note.isFilled]) <|
        List.forall_mem_append.2 ⟨env.isUse_signatureErrors _ _ _, isUse_ite _ rfl⟩
    exact (hplace _ _ _).append (Routine.accounts_of_decls hf _)

theorem Routine.accounts_bindInner (env : Env) (f : Routine) :
    Accounts (f.bindInner env).inner (f.innerErrors env) :=
  f.accounts_of_decls (fun d _ env => d.accounts_bind env) env

/-! ### Classes and programs -/

namespace Layout

variable (l : Layout) (level : Nat)

theorem isFilled_field (fs : List TypedName) :
    ∀ n ∈ (l.placeFields level fs).map (fun f => Note.field f.name f.offset),
      n.isFilled = true := by
  induction fs generalizing l with
  | nil => simp [placeFields]
  | cons f fs ih => exact List.forall_mem_cons.2 ⟨rfl, ih _⟩

theorem accounts_methods (env : Env) (ms : List Routine) :
    Accounts
      (((l.placeMethods level ms).map (Routine.bindInner env)).flatMap fun m =>
        .method m.name m.signature m.offset :: m.inner)
      (ms.flatMap (Routine.innerErrors env)) := by
  induction ms generalizing l with
  | nil => exact .settled (by simp [placeMethods]) (by simp)
  | cons m ms ih =>
    rw [placeMethods, List.map_cons, Routine.bindInner_offset, List.flatMap_cons,
      Routine.inner_offset, List.flatMap_cons]
    have hplace : Accounts [.method (m.bindInner env).name (m.bindInner env).signature
      (some (l.methodOffset m.name))] [] := .filled rfl
    exact (hplace.append (m.accounts_bindInner env)).append (ih _)

end Layout

namespace ClassDecl

variable (env : Env)

theorem accounts_bind (c : ClassDecl) : Accounts (c.bind env).notes (c.nameErrors env) := by
  refine Accounts.append (.settled ?_ (c.isUse_declErrors env)) (Layout.accounts_methods _ _ _ _)
  exact List.forall_mem_cons.2 ⟨rfl, Layout.isFilled_field _ _ _⟩

theorem accounts_all (cs : List ClassDecl) :
    Accounts ((bindAll env cs).flatMap ClassDecl.notes) (nameErrorsAll env cs) := by
  induction cs generalizing env with
  | nil => exact .settled (by simp [bindAll]) (by simp [nameErrorsAll])
  | cons c cs ih =>
    rw [bindAll, List.flatMap_cons]
    exact (c.accounts_bind env).append (ih _)

end ClassDecl

namespace Program

variable (env : Env) (p : Program)

theorem accounts_bindIn : Accounts (p.bindIn env).notes (p.nameErrorsIn env) := by
  have hclasses := ClassDecl.accounts_all (env.enter .empty) p.classes
  have hdecls : Accounts (Decl.notesAll (Decl.bindAll (p.declEnv env) p.decls)) _ :=
    Decl.accounts_all (fun d _ env => d.accounts_bind env) (p.declEnv env)
  have hmain := p.main.accounts_bind (p.mainEnv env)
  cases p <;> exact (hclasses.append hdecls).append hmain

/-- **Name resolution is complete, and its errors account for every hole in the tree.**  Whatever
the program, and whatever has been resolved before it: the tree is left as it was except for what
is written into it; every class has its entry, and every field, method, parameter, variable and
function its offset.  The errors about uses of names and the uses that are not bound, each in the
order of the tree, belong together one by one, with the same lines and names.  An object of a class
that is not known is reported too, at its line and with the name of the class. -/
theorem holes_bindIn :
    (p.bindIn env).erase = p.erase ∧
      (∀ n ∈ (p.bindIn env).notes, n.isDeclaration = true → n.isFilled = true) ∧
      List.Forall₂ Note.ReportedBy ((p.bindIn env).notes.filter Note.isHole)
        ((p.nameErrorsIn env).filter fun e => e.fault.isUse) ∧
      ∀ line cls, Note.new line cls none ∈ (p.bindIn env).notes →
        ⟨.unknownClass cls, line⟩ ∈ p.nameErrorsIn env := by
  have h := p.accounts_bindIn env
  exact ⟨erase_bindIn env p, h.declarations, h.holes, h.constructions⟩

/-- A method with all that can be wrong with a method call, and a call of an unknown function among
whose arguments there is an object of an unknown class. -/
def riddled : Program :=
  .letIn
    [{ name := "Cell"
       fields := [{ name := "size", ty := .int }, { name := "size", ty := .ref "Cells" }]
       methods :=
        [{ name := "next", params := [{ name := "cell", ty := .ref "Cell" }], ret := .int
           decls := []
           body := .arith 1 .add (.send 2 "cells" "next" [.ident 3 "index" none] none)
            (.arith 4 .add (.send 5 "next" "size" [] none) (.send 6 "cell" "size" [] none)) }] }]
    [.var { name := "Cell", ty := .int, init := .ident 7 "Cell" none }]
    (.call 8 "main" [.ident 9 "Cell" none, .new 10 "Cells" [.ident 11 "cells" none] none] none)

example :
    riddled.bind.notes.filter Note.isHole =
        [.send 2 "cells" "next" none, .ident 3 "index" none, .send 5 "next" "size" none,
          .send 6 "cell" "size" none, .call 8 "main" none, .ident 11 "cells" none] ∧
      riddled.nameErrors =
        [⟨.unknownClass "Cells", 0⟩, ⟨.declaredTwice .field "size", 0⟩,
          ⟨.unknownName .object "cells", 2⟩, ⟨.unknownName .var "index", 3⟩,
          ⟨.receiverNotObject "next", 5⟩, ⟨.noSuchMethod "cell" "size", 6⟩,
          ⟨.declaredTwice .var "Cell", 0⟩, ⟨.unknownName .fn "main", 8⟩,
          ⟨.unknownClass "Cells", 10⟩, ⟨.unknownName .var "cells", 11⟩] := by decide

end Program

end ObjectLang
