import ObjectLang.Proofs.Classes
import ObjectLang.Proofs.Emittable

/-!
# Links from inside a method

The frame of a use and that of the declaration it refers to are connected by access links, one for
each nesting level between the two.  In a method these links lead to the object that the method was
called on, and end there: what an object has at its address is no link but its dispatch table.  So a
name that is used in a method must not be declared outside of the class.

It never is, although nothing in name resolution forbids it (`Program.links_of_check`).  Classes
come before all other declarations, so the only names from outside are those of classes
(`Env.InMethod`).  A class can be named where a variable, a function or a receiver is expected, but
none of these uses has a type, and parts of what has a type have types themselves
(`Expr.Within.infer_ok`).
-/

namespace ObjectLang

/-! ### Parts of trees -/

/-- The expressions right inside an expression. -/
def Expr.operands : Expr → List Expr
  | .int _ _ | .bool _ _ | .null _ | .ident _ _ _ => []
  | .arith _ _ l r | .compare _ _ l r | .logic _ _ l r => [l, r]
  | .not _ e | .print _ e => [e]
  | .cond _ c t f => [c, t, f]
  | .call _ _ args _ | .send _ _ _ args _ | .new _ _ args _ => args

/-- The expression is part of another one, or is that one. -/
inductive Expr.Within : Expr → Expr → Prop
  | refl (e : Expr) : Within e e
  | operand {part e whole : Expr} (h : Within part e) (he : e ∈ whole.operands) : Within part whole

/-- The expression is part of a declaration, inside so many functions. -/
inductive Decl.Contains : Decl → Nat → Expr → Prop
  | init {v : Variable} {e : Expr} (h : e.Within v.init) : Contains (.var v) 0 e
  | decl {f : Routine} {d : Decl} {depth : Nat} {e : Expr} (hd : d ∈ f.decls)
    (h : d.Contains depth e) : Contains (.fn f) (depth + 1) e
  | body {f : Routine} {e : Expr} (h : e.Within f.body) : Contains (.fn f) 1 e

/-- The expression is part of a routine, inside so many routines, this one included. -/
def Routine.Contains (f : Routine) (depth : Nat) (e : Expr) : Prop := (Decl.fn f).Contains depth e

/-- What the expression gets at by links from its frame: a variable, a function or the receiver of a
method call. -/
inductive Expr.Accesses : Expr → Option Binding → Prop
  | ident (line : SourceLine) (name : String) (b : Option Binding) :
    Accesses (.ident line name b) b
  | call (line : SourceLine) (name : String) (args : List Expr) (b : Option Binding) :
    Accesses (.call line name args b) b
  | send (line : SourceLine) (receiver method : String) (args : List Expr)
    (b : Option MethodBinding) :
    Accesses (.send line receiver method args b) (b.map fun b => ⟨b.receiver, b.level⟩)

/-- Where the code starts from its frame for the last time, it goes along exactly so many links.  If
there are arguments, their code comes earlier. -/
def FollowsLinks (hops : Nat) (code : List Instruction) : Prop :=
  ∃ before after, code = before ++ [.op .lfp] ++ List.replicate hops (.op .lw) ++ after ∧
    .op .lfp ∉ after ∧ after.head? ≠ some (.op .lw)

/-- Whatever the expression gets at is in scope inside a class, and the links that its code follows
are no more than the routines around it. -/
def Expr.LinksWithin (e : Expr) (depth : Nat) : Prop :=
  ∀ found, e.Accesses found → ∃ b, found = some b ∧ 1 ≤ b.entry.level ∧ b.level = depth + 1 ∧
    b.hops ≤ depth ∧
    ∀ memorySize n, ∃ code, e.emit memorySize n = .ok code ∧ FollowsLinks b.hops code

/-! ### Parts have types -/

variable {h : Hierarchy}

theorem Expr.infer_ok_operands {whole : Expr} {ty : Ty} (ht : whole.infer h = .ok ty) :
    ∀ e ∈ whole.operands, ∃ ty, e.infer h = .ok ty := by
  cases whole with
  | int | bool | null | ident => simp [Expr.operands]
  | arith | compare | logic =>
    simp only [Expr.infer, bind_ok_iff] at ht
    obtain ⟨left, hl, right, hr, -⟩ := ht
    simp [Expr.operands, hl, hr]
  | not =>
    simp only [Expr.infer, bind_ok_iff] at ht
    obtain ⟨operand, he, -⟩ := ht
    simp [Expr.operands, he]
  | print => simpa [Expr.operands] using ⟨ty, ht⟩
  | cond =>
    simp only [Expr.infer, bind_ok_iff] at ht
    obtain ⟨test, hc, -, -, yes, hy, no, hno, -⟩ := ht
    simp [Expr.operands, hc, hy, hno]
  | call | send | new =>
    simp only [Expr.infer, bind_ok_iff] at ht
    obtain ⟨-, -, sig, -, hargs⟩ := ht
    exact infer_ok_of_callType hargs

/-- What is part of something that has a type has a type. -/
theorem Expr.Within.infer_ok {part whole : Expr} (hp : part.Within whole) {ty : Ty}
    (ht : whole.infer h = .ok ty) : ∃ ty, part.infer h = .ok ty := by
  induction hp generalizing ty with
  | refl => exact ⟨ty, ht⟩
  | operand _ he ih =>
    obtain ⟨ty', ht'⟩ := Expr.infer_ok_operands ht _ he
    exact ih ht'

variable {env : Env}

theorem Expr.operands_bind (e : Expr) :
    (e.bind env).operands = e.operands.map (Expr.bind env) := by
  cases e <;> simp [Expr.bind, Expr.operands, Expr.bindAll_eq_map]

theorem Expr.nameErrors_operands {whole : Expr} (hn : whole.nameErrors env = []) :
    ∀ e ∈ whole.operands, e.nameErrors env = [] := by
  cases whole with
  | int | bool | null | ident => simp [Expr.operands]
  | arith | compare | logic | not | print | cond =>
    simpa [Expr.nameErrors, Expr.operands, and_assoc] using hn
  | call | send | new =>
    rw [Expr.nameErrors, List.append_eq_nil_iff] at hn
    exact forall_nameErrors hn.2

/-- What is part of a bound expression is a part of the expression, bound. -/
theorem Expr.Within.exists_bind {part whole : Expr} (hp : part.Within whole) {e : Expr}
    (he : whole = e.bind env) (hn : e.nameErrors env = []) :
    ∃ e' : Expr, part = e'.bind env ∧ e'.nameErrors env = [] := by
  induction hp generalizing e with
  | refl => exact ⟨e, he, hn⟩
  | operand _ hmem ih =>
    rw [he, Expr.operands_bind, List.mem_map] at hmem
    obtain ⟨e', he', rfl⟩ := hmem
    exact ih rfl (Expr.nameErrors_operands hn e' he')

/-! ### Names inside a method -/

/-- The environment inside so many routines of a class: all that is declared outside of the class
are classes. -/
structure Env.InMethod (env : Env) (depth : Nat) : Prop where
  opened : env.Opened
  level : env.level = depth + 1
  entry : ∀ {name : String} {e : Entry}, env.scopes.lookup name = some e → e.ty.shape? = none →
    1 ≤ e.level

namespace Env.InMethod

variable {depth : Nat}

theorem declare (hm : env.InMethod depth) (name : String) {entry : Entry}
    (hentry : 1 ≤ entry.level) : (env.declare name entry).InMethod depth where
  opened := Env.opened_declare.2 hm.opened
  level := Env.level_declare.trans hm.level
  entry {other e} hx hsh := by
    rw [Env.lookup_declare hm.opened] at hx
    split at hx
    · cases hx
      exact hentry
    · exact hm.entry hx hsh

theorem declareLocal (hm : env.InMethod depth) (name : String) (ty : Ty) :
    (env.declareLocal name ty).InMethod depth := by
  have hlevel : 1 ≤ (env.localEntry ty).level := by
    rw [Env.localEntry, hm.level]
    exact Nat.succ_pos depth
  have hdeclare := hm.declare name hlevel
  exact ⟨hdeclare.opened, hdeclare.level, hdeclare.entry⟩

theorem extend (hm : env.InMethod depth) (d : Decl) : (d.extend env).InMethod depth := by
  cases d <;> exact hm.declareLocal _ _

theorem extendAll (hm : env.InMethod depth) (ds : List Decl) :
    (Decl.extendAll env ds).InMethod depth := by
  induction ds generalizing env with
  | nil => exact hm
  | cons d ds ih => exact ih (hm.extend d)

theorem withParams (hm : env.InMethod depth) (offset : Int) (params : List TypedName) :
    (env.withParams offset params).InMethod depth := by
  induction params generalizing env offset with
  | nil => exact hm
  | cons p ps ih =>
    refine ih (hm.declare p.name ?_) _
    rw [hm.level]
    exact Nat.succ_pos depth

theorem enterRoutine (hm : env.InMethod depth) (params : List TypedName) :
    (env.enterRoutine params).InMethod (depth + 1) := by
  refine withParams ⟨Env.opened_enter _, ?_, fun hx => ?_⟩ _ _
  · rw [Env.level_enter hm.opened, hm.level]
  · rw [Env.lookup_enter_empty] at hx
    exact hm.entry hx

end Env.InMethod

/-! ### Uses inside a method -/

theorem climbLinks_eq (hops : Nat) : climbLinks hops = List.replicate hops (.op .lw) :=
  List.map_replicate

theorem followsLinks_identCode (b : Binding) : FollowsLinks b.hops (identCode b) := by
  refine ⟨[], loadAt b.entry.offset, ?_, by simp [loadAt, straight], by simp [loadAt, straight]⟩
  rw [identCode, climbLinks_eq]
  rfl

theorem followsLinks_callCode (b : Binding) (args : List Instruction) :
    FollowsLinks b.hops (callCode b args) := by
  refine ⟨straight [.lfp] ++ args, copyTop ++ (if b.entry.isMethod then straight [.lw] else []) ++
    loadAt b.entry.offset ++ straight [.js], by simp [callCode, climbLinks_eq, straight], ?_, ?_⟩
  · cases b.entry.isMethod <;> simp [copyTop, loadAt, straight]
  · simp [copyTop, straight]

theorem followsLinks_sendCode (b : MethodBinding) (args : List Instruction) :
    FollowsLinks b.hops (sendCode b args) := by
  refine ⟨straight [.lfp] ++ args, loadAt b.receiver.offset ++ copyTop ++ straight [.lw] ++
    loadAt b.method.offset ++ straight [.js], by simp [sendCode, climbLinks_eq, straight], ?_, ?_⟩
  · simp [copyTop, loadAt, straight]
  · simp [loadAt, straight]

/-- The code of a use of a name follows the links to where the name is declared. -/
theorem Expr.Accesses.followsLinks {e : Expr} {found : Option Binding} (ha : e.Accesses found)
    {b : Binding} (hb : found = some b) {memorySize n : Nat} {code : List Instruction}
    (hcode : e.emit memorySize n = .ok code) : FollowsLinks b.hops code := by
  cases ha with
  | ident =>
    subst hb
    cases hcode
    exact followsLinks_identCode b
  | call =>
    subst hb
    simp only [Expr.emit, bind_ok_iff] at hcode
    obtain ⟨_, hbound, words, -, hcode⟩ := hcode
    cases hbound
    cases hcode
    exact followsLinks_callCode b words
  | send =>
    obtain ⟨b, rfl, rfl⟩ := Option.map_eq_some_iff.1 hb
    simp only [Expr.emit, bind_ok_iff] at hcode
    obtain ⟨_, hbound, words, -, hcode⟩ := hcode
    cases hbound
    cases hcode
    exact followsLinks_sendCode b words

/-- What an expression that has a type gets at is not a class. -/
theorem Expr.exists_of_accesses (e : Expr) (hn : e.nameErrors env = []) {ty : Ty}
    (ht : (e.bind env).infer h = .ok ty) {found : Option Binding}
    (ha : (e.bind env).Accesses found) :
    ∃ name entry, env.scopes.lookup name = some entry ∧ entry.ty.shape? = none ∧
      found = some ⟨entry, env.level⟩ := by
  -- a class is no value, has no signature, and is not of the type of a reference
  cases e with
  | ident line name b =>
    obtain ⟨entry, hx⟩ := Env.lookup_of_useErrors hn
    have hb : env.binding? name = some ⟨entry, env.level⟩ := by rw [Env.binding?, hx]; rfl
    simp only [Expr.bind, hb, Expr.infer, bound, bind_ok_iff, Except.ok.injEq] at ha ht
    obtain ⟨_, rfl, hty⟩ := ht
    cases ha
    exact ⟨name, entry, hx, (valueType_ok hty).2.2, rfl⟩
  | call line name args b =>
    rw [Expr.nameErrors, List.append_eq_nil_iff] at hn
    obtain ⟨entry, hx⟩ := Env.lookup_of_useErrors hn.1
    have hb : env.binding? name = some ⟨entry, env.level⟩ := by rw [Env.binding?, hx]; rfl
    simp only [Expr.bind, hb, Expr.infer, bound, bind_ok_iff, Except.ok.injEq] at ha ht
    obtain ⟨_, rfl, sig, hsig, -⟩ := ht
    cases ha
    refine ⟨name, entry, hx, ?_, rfl⟩
    have hsig := callSignature_ok hsig
    cases hty : entry.ty <;> simp_all [Ty.signature?, Ty.shape?]
  | send line receiver method args b =>
    rw [Expr.nameErrors, List.append_eq_nil_iff] at hn
    obtain ⟨entry, cls, l, target, hx, hty, -, -, hb⟩ := Env.methodBinding_of_sendErrors hn.1
    simp only [Expr.bind, hb] at ha
    cases ha
    exact ⟨receiver, entry, hx, by rw [hty]; rfl, rfl⟩
  | _ => cases ha

/-- Parts of an expression that has a type, inside a method. -/
theorem Env.InMethod.linksWithin {depth : Nat} (hm : env.InMethod depth) {e part : Expr}
    (hn : e.nameErrors env = []) {ty : Ty} (ht : (e.bind env).infer h = .ok ty)
    (hp : part.Within (e.bind env)) : part.LinksWithin depth := by
  intro found ha
  obtain ⟨ty', ht'⟩ := hp.infer_ok ht
  obtain ⟨e', rfl, hn'⟩ := hp.exists_bind rfl hn
  obtain ⟨name, entry, hx, hsh, rfl⟩ := e'.exists_of_accesses hn' ht' ha
  have hlevel := hm.entry hx hsh
  refine ⟨_, rfl, hlevel, hm.level, ?_, fun memorySize n => ?_⟩
  · rw [Binding.hops, hm.level]
    simp only
    omega
  · obtain ⟨code, hcode⟩ := e'.exists_emit memorySize hn' n
    exact ⟨code, hcode, ha.followsLinks rfl hcode⟩

/-! ### Declarations inside a method -/

/-- The uses in a declaration inside a method stay inside the class. -/
def Decl.LinksWithin (h : Hierarchy) (d : Decl) : Prop :=
  ∀ {env : Env} {depth : Nat}, env.InMethod depth → d.nameErrors env = [] →
    (d.bind env).typeErrors h = [] →
    ∀ {n : Nat} {e : Expr}, (d.bind env).Contains n e → e.LinksWithin (depth + n)

theorem Decl.linksWithin_all {ds : List Decl} (hs : ∀ d ∈ ds, d.LinksWithin h) {depth : Nat}
    (hm : env.InMethod depth) (hn : Decl.nameErrorsAll env ds = [])
    (ht : Decl.typeErrorsAll h (Decl.bindAll env ds) = []) :
    ∀ d ∈ Decl.bindAll env ds, ∀ {n : Nat} {e : Expr}, d.Contains n e →
      e.LinksWithin (depth + n) := by
  induction ds generalizing env with
  | nil => simp [Decl.bindAll]
  | cons d ds ih =>
    rw [Decl.nameErrorsAll, List.append_eq_nil_iff] at hn
    rw [Decl.bindAll, Decl.typeErrorsAll, List.append_eq_nil_iff] at ht
    rw [List.forall_mem_cons] at hs
    rw [Decl.bindAll, List.forall_mem_cons]
    exact ⟨hs.1 hm hn.1 ht.1, ih hs.2 (hm.extend d) hn.2 ht.2⟩

/-- The uses in a routine inside a class stay inside the class. -/
theorem Routine.linksWithin_of {f : Routine} (hs : ∀ d ∈ f.decls, d.LinksWithin h) {depth : Nat}
    (hm : env.InMethod depth) (hn : f.innerErrors env = [])
    (ht : (f.bindInner env).typeErrors h = []) {offset : Option Int} {n : Nat} {e : Expr}
    (hc : Routine.Contains { f.bindInner env with offset := offset } n e) :
    e.LinksWithin (depth + n) := by
  obtain ⟨name, params, ret, decls, body, line, place⟩ := f
  simp only [Routine.innerErrors, List.append_eq_nil_iff] at hn
  simp only [Routine.bindInner, Routine.typeErrors, List.append_eq_nil_iff] at ht
  have hinner := hm.enterRoutine params
  cases hc with
  | @decl _ d n _ hd hc =>
    have hdecl := Decl.linksWithin_all hs hinner hn.1.2 ht.1 d hd hc
    rwa [Nat.add_assoc, Nat.add_comm 1 n] at hdecl
  | body hp =>
    obtain ⟨found, hfound, -⟩ := checkBody_ok (body.isBound_infer hn.2) ht.2
    exact (hinner.extendAll decls).linksWithin hn.2 hfound hp

theorem Decl.linksWithin (d : Decl) : d.LinksWithin h := by
  induction d using Decl.ind with
  | var v =>
    intro env depth hm hn ht n e hc
    simp only [Decl.nameErrors, List.append_eq_nil_iff] at hn
    cases hc with
    | init hp =>
      obtain ⟨found, hfound, -⟩ := Variable.check_ok (v.init.isBound_infer hn.1.2) ht
      exact hm.linksWithin hn.1.2 hfound hp
  | fn f hf =>
    intro env depth hm hn ht n e hc
    simp only [Decl.nameErrors, List.append_eq_nil_iff] at hn
    simp only [Decl.bind, Decl.typeErrors, Routine.typeErrors_offset] at ht
    exact Routine.linksWithin_of hf (hm.extend (.fn f)) hn.2 ht hc

/-! ### Classes -/

namespace Layout

/-- All members are declared at the given nesting level. -/
def AtLevel (level : Nat) (l : Layout) : Prop :=
  ∀ name e, l.member? name = some e → e.level = level

variable {level : Nat} {l : Layout}

theorem atLevel_empty (level : Nat) : empty.AtLevel level := by
  intro name e he
  simp [empty, member?] at he

theorem AtLevel.add (hl : l.AtLevel level) {a : Addition} (ha : a.level = level) :
    (l.add a).AtLevel level := by
  intro name e he
  rw [member?_add] at he
  split at he
  · cases he
    exact ha
  · exact hl name e he

end Layout

namespace Program

variable {p : Program} (hn : p.nameErrors = [])
include hn

theorem atLevel_stage : ∀ st ∈ p.stages, st.layout.AtLevel 1 := by
  refine layout_induction hn (Layout.atLevel_empty 1) fun {earlier later st} hsplit hinherited => ?_
  have hlevel : ClassDecl.innerLevel st.before.env = 1 := by
    rw [ClassDecl.innerLevel, (follows_stage hn hsplit).1.level]
  rw [Stage.layout, Layout.layout_eq_addAll, hlevel]
  exact Layout.addAll_induction hinherited fun l hl a ha => hl.add (ClassDecl.level_additions ha)

/-- Around the methods of a class there are its members and, outside of it, classes. -/
theorem inMethod_stage {earlier later : List Stage} {st : Stage}
    (hsplit : p.stages = earlier ++ st :: later) :
    (st.cls.methodEnv st.before.env).InMethod 0 := by
  obtain ⟨hfollows, hnames⟩ := follows_stage hn hsplit
  have hafter := hfollows.snoc hnames
  refine ⟨Env.opened_enter _, ?_, fun {name e} hx hsh => ?_⟩
  · exact (Env.level_enter hafter.opened _).trans (congrArg (· + 1) hafter.level)
  · rw [ClassDecl.methodEnv, Env.lookup_enter] at hx
    rcases Option.or_eq_some_iff.1 hx with hx | ⟨-, hx⟩
    · exact Nat.le_of_eq (atLevel_stage hn st (mem_stages hsplit) name e hx).symm
    · obtain ⟨st', -, rfl⟩ := Option.map_eq_some_iff.1 ((hafter.global name).symm.trans hx)
      cases hsh

omit hn

/-- **Static access from inside a method never goes beyond the object.**  In a program that is
accepted, every variable, function and receiver that is used in a method, at whatever depth, is
bound to a declaration inside the class or the method.  From inside `depth` routines its code
follows at most `depth` links, the last of which leads to the object. -/
theorem links_of_check {p : Program} {ty : Option Ty} (hn : p.nameErrors = [])
    (hty : p.bind.check = .ok ty) :
    ∀ c ∈ p.bind.classes, ∀ m ∈ c.methods, ∀ depth e, m.Contains depth e →
      ∀ found, e.Accesses found → ∃ b, found = some b ∧ 1 ≤ b.entry.level ∧ b.level = depth + 1 ∧
        b.hops ≤ depth ∧
        ∀ memorySize n, ∃ code, e.emit memorySize n = .ok code ∧ FollowsLinks b.hops code := by
  intro c hc m hm depth e hcontains
  rw [classes_bind] at hc
  obtain ⟨st, hst, rfl⟩ := List.mem_map.1 hc
  obtain ⟨earlier, later, hsplit⟩ := List.append_of_mem hst
  have hnames := (follows_stage hn hsplit).2
  simp only [ClassDecl.nameErrors, List.append_eq_nil_iff, List.flatMap_eq_nil_iff] at hnames
  have htypes := typeErrors_stage (check_ok hty).1 hst
  simp only [ClassDecl.typeErrors, List.append_eq_nil_iff, List.flatMap_eq_nil_iff] at htypes
  have ht := htypes.2 m hm
  -- where the method is put does not matter, so take it as it was before that
  obtain ⟨f, hf, offset, rfl⟩ := exists_of_mem_bound hm
  rw [Routine.typeErrors_offset] at ht
  have hlinks := Routine.linksWithin_of (fun d _ => d.linksWithin) (inMethod_stage hn hsplit)
    (hnames.2 f hf) ht hcontains
  rwa [Nat.zero_add] at hlinks

/-- A class with a method that has a function inside it, where fields are used. -/
def cells : Program :=
  .letIn
    [{ name := "Cell"
       fields := [{ name := "value", ty := .int }, { name := "next", ty := .ref "Cell" }]
       methods := [{ name := "sum", params := [{ name := "start", ty := .int }], ret := .int
                     decls := [.fn { name := "rest", params := [], ret := .int, decls := []
                                     body := .send 0 "next" "sum" [.ident 0 "value" none] none }]
                     body := .call 0 "rest" [] none }] }]
    [] (.int 0 0)

theorem links_of_check_cells :
    cells.nameErrors = [] ∧ cells.bind.check = .ok (some .int) ∧
      ∃ c m e b code, cells.bind.classes[0]? = some c ∧ c.methods[0]? = some m ∧ m.Contains 2 e ∧
        e.Accesses (some b) ∧ b.hops = 2 ∧ e.emit 100 0 = .ok code ∧ FollowsLinks 2 code := by
  have hplace : ∃ c m, cells.bind.classes[0]? = some c ∧ c.methods[0]? = some m ∧
      m.Contains 2 (.ident 0 "value" (some ⟨⟨1, .int, -1⟩, 3⟩)) := by
    refine ⟨_, _, rfl, rfl, .decl (List.mem_of_getElem? (i := 0) rfl) (.body ?_)⟩
    exact .operand (.refl _) (List.mem_of_getElem? (i := 0) rfl)
  obtain ⟨c, m, hc, hm, hcontains⟩ := hplace
  obtain ⟨b, hb, -, -, -, hcode⟩ := links_of_check (p := cells) rfl rfl c (List.mem_of_getElem? hc)
    m (List.mem_of_getElem? hm) 2 _ hcontains _ (.ident _ _ _)
  cases hb
  obtain ⟨code, hcode, hlinks⟩ := hcode 100 0
  exact ⟨rfl, rfl, c, m, _, _, code, hc, hm, hcontains, .ident _ _ _, rfl, hcode, hlinks⟩

end Program

end ObjectLang
