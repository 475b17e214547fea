import ObjectLang.Naming.Program

/-!
# What programs mean

A reference evaluator that works on names: a name stands for a word or for a function together with
the names around it, objects are kept by address with their class and their fields by name, and
there are neither frames nor offsets.  What name resolution has written into a tree is not looked
at.

* `eval` evaluates an expression; how functions are called is an argument, so that its recursion is
  that of the expression;
* `elaborate` adds the names of declarations;
* `invoke` calls a routine, with a bound on the depth of calls;
* `Program.evaluate` evaluates a program.

Operands are evaluated from left to right, except that `>=` evaluates its right operand first;
arguments of a call are evaluated from the last to the first and those of `new` from the first to
the last.
-/

namespace ObjectLang

/-- The class of a name and its superclasses, the nearest first, among classes listed from the last
one on. -/
def lineage : List ClassDecl → String → List ClassDecl
  | [], _ => []
  | c :: cs, cls =>
    if c.name = cls then c :: c.superclass.elim [] (lineage cs) else lineage cs cls

/-- The declaration of a method that a class has by itself. -/
def ClassDecl.ownMethod? (c : ClassDecl) (method : String) : Option Routine :=
  c.methods.find? (·.name = method)

/-- The declaration of a method in the first of the given classes that has one. -/
def nearestMethod? (classes : List ClassDecl) (method : String) : Option Routine :=
  classes.findSome? (·.ownMethod? method)

namespace LogicOp

/-- The value of the first operand settles that of the connective. -/
def Decides : LogicOp → Int64 → Prop
  | and, v => v = 0
  | or, v => v ≠ 0

instance (op : LogicOp) (v : Int64) : Decidable (op.Decides v) :=
  match op with
  | and => inferInstanceAs (Decidable (v = 0))
  | or => inferInstanceAs (Decidable (v ≠ 0))

end LogicOp

namespace Reference

/-- An object. -/
structure Object where
  cls : String
  fields : List (String × Int64)

/-- What evaluation leaves behind besides a value. -/
structure Store where
  /-- The first free address. -/
  free : Nat
  /-- The objects made so far, the last one first. -/
  objects : List (Int64 × Object)
  /-- The words output so far. -/
  output : List Int64

/-- The object at an address. -/
def Store.object? (σ : Store) (address : Int64) : Option Object := σ.objects.lookup address

/-- Why there is no value. -/
inductive Stop where
  | divisionByZero
  /-- A method is called on something that is no object. -/
  | noObject
  /-- Something is called that is a word. -/
  | noFunction
  /-- Calls are nested too deeply. -/
  | outOfFuel
  /-- A name stands for nothing, or for the wrong kind of thing. -/
  | meaningless
deriving DecidableEq

/-- Evaluation in a store. -/
abbrev Eval := StateT Store (Except Stop)

/-- Give up. -/
def stop {α : Type} (cause : Stop) : Eval α := fun _ => .error cause

/-- What a name stands for. -/
inductive Denotation where
  | word (value : Int64)
  /-- A function, with the names and the object around its declaration. -/
  | fn (f : Routine) (names : List (String × Denotation)) (this : Option Int64)

/-- The names at a point of a program, and the object whose method is being executed. -/
structure Context where
  names : List (String × Denotation)
  this : Option Int64

/-- Bind a name. -/
def Context.bind (ρ : Context) (name : String) (d : Denotation) : Context :=
  { ρ with names := (name, d) :: ρ.names }

/-- What evaluation needs to know about classes. -/
structure Classes where
  /-- The names of the fields of a class. -/
  fields? : String → Option (List String)
  /-- The declaration of a method for objects of a class. -/
  method? : String → String → Option Routine

/-! ### Operations -/

/-- The word for a truth value. -/
def truth (b : Bool) : Int64 := if b then 1 else 0

/-- The value of an arithmetic operation. -/
def arith : ArithOp → Int64 → Int64 → Eval Int64
  | .add, a, b => pure (a + b)
  | .sub, a, b => pure (a - b)
  | .mul, a, b => pure (a * b)
  | .div, a, b => if b = 0 then stop .divisionByZero else pure (a / b)

/-- Output a word. -/
def print (v : Int64) : Eval Int64 := fun σ => .ok (v, { σ with output := σ.output ++ [v] })

/-- The object at an address. -/
def objectAt (address : Int64) (cause : Stop) : Eval Object := fun σ =>
  match σ.object? address with
  | some o => .ok (o, σ)
  | none => .error cause

/-- Make an object, whose address comes after its fields. -/
def construct (cls : String) (names : List String) (values : List Int64) : Eval Int64 := fun σ =>
  let address := Int64.ofNat (σ.free + values.length)
  .ok (address,
    { σ with
      free := σ.free + values.length + 1
      objects := (address, ⟨cls, names.zip values⟩) :: σ.objects })

/-- The word that a name stands for: a variable or, inside a method, a field of the object. -/
def Context.value (ρ : Context) (name : String) : Eval Int64 :=
  match ρ.names.lookup name, ρ.this with
  | some (.word v), _ => pure v
  | some (.fn _ _ _), _ => stop .meaningless
  | none, none => stop .meaningless
  | none, some this => do
    let o ← objectAt this .meaningless
    match o.fields.lookup name with
    | some v => pure v
    | none => stop .meaningless

section Evaluate

variable (K : Classes) (call : Routine → Context → List Int64 → Eval Int64)

/-- Call the method that an object's class has under a name. -/
def dispatch (address : Int64) (o : Object) (method : String) (args : List Int64) : Eval Int64 :=
  match K.method? o.cls method with
  | some f => call f ⟨[], some address⟩ args
  | none => stop .meaningless

/-- Call what a name stands for: a function or, inside a method, a method of the object.  A function
sees its own name. -/
def Context.apply (ρ : Context) (name : String) (args : List Int64) : Eval Int64 :=
  match ρ.names.lookup name, ρ.this with
  | some (.fn f names this), _ => call f ⟨(name, .fn f names this) :: names, this⟩ args
  | some (.word _), _ => stop .noFunction
  | none, none => stop .meaningless
  | none, some this => do
    let o ← objectAt this .meaningless
    match o.fields.lookup name with
    | some _ => stop .noFunction
    | none => dispatch K call this o name args

mutual

/-- The value of an expression. -/
def eval (ρ : Context) : Expr → Eval Int64
  | .int _ value => pure value
  | .bool _ value => pure (truth value)
  | .null _ => pure (-1)
  | .arith _ op l r => do
    let a ← eval ρ l
    let b ← eval ρ r
    arith op a b
  | .compare _ .eq l r => do
    let a ← eval ρ l
    let b ← eval ρ r
    return truth (a == b)
  | .compare _ .le l r => do
    let a ← eval ρ l
    let b ← eval ρ r
    return truth (decide (a ≤ b))
  | .compare _ .ge l r => do
    let b ← eval ρ r
    let a ← eval ρ l
    return truth (decide (b - a ≤ 0))
  | .logic _ .and l r => do
    let a ← eval ρ l
    if a = 0 then return 0 else
      let b ← eval ρ r
      return truth (b != 0)
  | .logic _ .or l r => do
    let a ← eval ρ l
    if a = 0 then
      let b ← eval ρ r
      return truth (b != 0)
    else return 1
  | .not _ e => do
    let a ← eval ρ e
    return truth (a == 0)
  | .cond _ c t f => do
    let a ← eval ρ c
    if a = 1 then eval ρ t else eval ρ f
  | .print _ e => do
    let v ← eval ρ e
    print v
  | .ident _ name _ => ρ.value name
  | .call _ name args _ => do
    let values ← evalReversed ρ args
    ρ.apply K call name values
  | .send _ receiver method args _ => do
    let values ← evalReversed ρ args
    let address ← ρ.value receiver
    let o ← objectAt address .noObject
    dispatch K call address o method values
  | .new _ cls args _ => do
    let values ← evalAll ρ args
    match K.fields? cls with
    | some names => construct cls names values
    | none => stop .meaningless

/-- The values of several expressions, evaluated from the first to the last. -/
def evalAll (ρ : Context) : List Expr → Eval (List Int64)
  | [] => pure []
  | e :: es => do
    let v ← eval ρ e
    let vs ← evalAll ρ es
    return v :: vs

/-- The values of several expressions, evaluated from the last to the first. -/
def evalReversed (ρ : Context) : List Expr → Eval (List Int64)
  | [] => pure []
  | e :: es => do
    let vs ← evalReversed ρ es
    let v ← eval ρ e
    return v :: vs

end

/-- The value of a connective is the truth of the operand that is evaluated last. -/
theorem eval_logic (ρ : Context) (line : SourceLine) (op : LogicOp) (l r : Expr) :
    eval K call ρ (.logic line op l r) = do
      let a ← eval K call ρ l
      if op.Decides a then return truth (a != 0) else
        let b ← eval K call ρ r
        return truth (b != 0) := by
  cases op with
  | and =>
    rw [eval]
    refine bind_congr fun a => ?_
    by_cases ha : a = 0
    · subst ha
      rfl
    · rw [if_neg ha, if_neg (show ¬ LogicOp.and.Decides a from ha)]
  | or =>
    rw [eval]
    refine bind_congr fun a => ?_
    by_cases ha : a = 0
    · rw [if_pos ha, if_neg (show ¬ LogicOp.or.Decides a from not_not_intro ha)]
    · rw [if_neg ha, if_pos (show LogicOp.or.Decides a from ha)]
      simp [truth, ha]

/-- Add the names of declarations, each seen by those after it. -/
def elaborate (ρ : Context) : List Decl → Eval Context
  | [] => pure ρ
  | .var v :: ds => do
    let w ← eval K call ρ v.init
    elaborate (ρ.bind v.name (.word w)) ds
  | .fn f :: ds => elaborate (ρ.bind f.name (.fn f ρ.names ρ.this)) ds

end Evaluate

/-- The names inside a routine, before its local declarations. -/
def Context.enter (ρ : Context) : List TypedName → List Int64 → Context
  | p :: ps, v :: vs => (ρ.bind p.name (.word v)).enter ps vs
  | _, _ => ρ

/-- Call a routine, with calls nested at most as deep as the fuel allows. -/
def invoke (K : Classes) : Nat → Routine → Context → List Int64 → Eval Int64
  | 0, _, _, _ => stop .outOfFuel
  | fuel + 1, f, ρ, args => do
    let inner ← elaborate K (invoke K fuel) (ρ.enter f.params args) f.decls
    eval K (invoke K fuel) inner f.body

end Reference

open Reference

namespace Program

variable (p : Program)

/-- The classes of a program as its evaluation sees them. -/
def references : Classes where
  fields? cls := ((p.declEnv .empty).classes.layout? cls).map (·.fields.map (·.name))
  method? cls method := nearestMethod? (lineage p.classes.reverse cls) method

/-- The store in which a program starts: the dispatch tables have taken up the first addresses. -/
def store : Store where
  free := (p.classes.flatMap fun c =>
    ((p.declEnv .empty).classes.layout? c.name).elim [] (·.methods)).length
  objects := []
  output := []

/-- The value of a program and what its evaluation leaves behind, with calls nested at most as deep
as the fuel allows. -/
def evaluate (fuel : Nat) : Except Stop (Int64 × Store) :=
  (do let ρ ← elaborate p.references (invoke p.references fuel) ⟨[], none⟩ p.decls
      eval p.references (invoke p.references fuel) ρ p.main).run p.store

end Program

end ObjectLang
