import ObjectLang.Proofs.Holes
import ObjectLang.Proofs.Tables
import ObjectLang.Proofs.WellScoped

/-!
# What comes after name resolution without errors

A program whose names are in order has a type or type errors, so that it is never left without an
answer.  Code can be emitted for it in all cases but one: a class declares a method with the name of
a field that one of its superclasses declares with the type of a method.  Such a field counts as a
method, so it may be overridden by one, which takes over its offset; but that is the offset of a
field, and there is no slot for it in the dispatch table (`Program.outcome_of_nameErrors`).
-/

namespace ObjectLang

/-- The class declares a method with the name of a field that one of its superclasses declares with
the type of a method, where the classes before it are listed from the last one on. -/
def ClassDecl.OverridesMethodField (before : List ClassDecl) (c : ClassDecl) : Prop :=
  ∃ m ∈ c.methods, ∃ a ∈ c.superclass.elim [] (lineage before),
    ∃ f ∈ a.fields, f.name = m.name ∧ f.ty.isMethod = true

/-- Some class overrides a field with the type of a method by a method. -/
def Program.OverridesMethodField (p : Program) : Prop :=
  ∃ before c after, p.classes = before ++ c :: after ∧ c.OverridesMethodField before.reverse

/-! ### Outcomes of emission -/

/-- Emission succeeds unless a slot is missing, and then says so. -/
structure Emits {α : Type} (missing : Prop) (x : Except EmitError α) : Prop where
  ok : ¬ missing → ∃ a, x = .ok a
  error : missing → ∃ line method, x = .error (.noSlot line method)

theorem exists_ok_bind {ε α β : Type} {x : Except ε α} {f : α → Except ε β}
    (hx : ∃ a, x = .ok a) (hf : ∀ a, ∃ b, f a = .ok b) : ∃ b, (x >>= f) = .ok b := by
  obtain ⟨a, rfl⟩ := hx
  exact hf a

namespace Emits

variable {α β : Type} {p q : Prop} {x : Except EmitError α}

theorem of_ok (h : ∃ a, x = .ok a) : Emits False x := ⟨fun _ => h, False.elim⟩

theorem congr (h : Emits p x) (hpq : p ↔ q) : Emits q x where
  ok hq := h.ok fun hp => hq (hpq.1 hp)
  error hq := h.error (hpq.2 hq)

/-- A slot is missing in one part or, if not there, in the next. -/
theorem bind {f : α → Except EmitError β} (hx : Emits p x) (hf : ∀ a, Emits q (f a)) :
    Emits (p ∨ q) (x >>= f) := by
  by_cases hp : p
  · obtain ⟨line, method, rfl⟩ := hx.error hp
    exact ⟨fun hpq => absurd (.inl hp) hpq, fun _ => ⟨line, method, rfl⟩⟩
  · obtain ⟨a, rfl⟩ := hx.ok hp
    exact (hf a).congr (by simp [hp])

end Emits

/-! ### Expressions and declarations -/

theorem exists_requireBound {α : Type} {line : SourceLine} {name : String} {b : Option α} {a : α}
    (h : b = some a) : ∃ a, requireBound line name b = .ok a := ⟨a, by rw [h]; rfl⟩

section Arguments

variable {env : Env} {size : Nat} {es : List Expr}
  (hs : ∀ e ∈ es, ∀ n, ∃ code, (e.bind env).emit size n = .ok code)
include hs

theorem Expr.exists_emitAll (n : Nat) :
    ∃ code, Expr.emitAll size n (Expr.bindAll env es) = .ok code := by
  induction es generalizing n with
  | nil => exact ⟨[], rfl⟩
  | cons e es ih =>
    rw [Expr.bindAll, Expr.emitAll]
    exact exists_ok_bind (hs e List.mem_cons_self n) fun _ =>
      exists_ok_bind (ih (fun e he => hs e (List.mem_cons_of_mem _ he)) _) fun _ => ⟨_, rfl⟩

theorem Expr.exists_emitReversed (n : Nat) :
    ∃ code, Expr.emitReversed size n (Expr.bindAll env es) = .ok code := by
  rw [Expr.emitReversed_eq, Expr.bindAll_eq_map, ← List.map_reverse, ← Expr.bindAll_eq_map]
  exact Expr.exists_emitAll (fun e he => hs e (List.mem_reverse.1 he)) n

end Arguments

theorem forall_nameErrors {env : Env} {es : List Expr} (h : Expr.nameErrorsAll env es = []) :
    ∀ e ∈ es, e.nameErrors env = [] := by
  rwa [Expr.nameErrorsAll_eq_flatMap, List.flatMap_eq_nil_iff] at h

/-- Code is emitted for an expression whose names are in order. -/
theorem Expr.exists_emit {env : Env} (size : Nat) (e : Expr) (hn : e.nameErrors env = [])
    (n : Nat) : ∃ code, (e.bind env).emit size n = .ok code := by
  induction e using Expr.ind generalizing n with
  | int | bool | null => exact ⟨_, rfl⟩
  | arith line op l r hl hr =>
    rw [Expr.nameErrors, List.append_eq_nil_iff] at hn
    rw [Expr.bind, Expr.emit]
    exact exists_ok_bind (hl hn.1 n) fun _ => exists_ok_bind (hr hn.2 _) fun _ => ⟨_, rfl⟩
  | compare line op l r hl hr =>
    rw [Expr.nameErrors, List.append_eq_nil_iff] at hn
    cases op <;> rw [Expr.bind, Expr.emit]
    case ge =>
      exact exists_ok_bind (hr hn.2 n) fun _ => exists_ok_bind (hl hn.1 _) fun _ => ⟨_, rfl⟩
    all_goals
      exact exists_ok_bind (hl hn.1 n) fun _ => exists_ok_bind (hr hn.2 _) fun _ => ⟨_, rfl⟩
  | logic line op l r hl hr =>
    rw [Expr.nameErrors, List.append_eq_nil_iff] at hn
    cases op <;> rw [Expr.bind, Expr.emit]
    all_goals
      exact exists_ok_bind (hl hn.1 _) fun _ => exists_ok_bind (hr hn.2 _) fun _ => ⟨_, rfl⟩
  | not line e he | print line e he =>
    rw [Expr.bind, Expr.emit]
    exact exists_ok_bind (he hn n) fun _ => ⟨_, rfl⟩
  | cond line c t f hc ht hf =>
    rw [Expr.nameErrors, List.append_eq_nil_iff, List.append_eq_nil_iff] at hn
    rw [Expr.bind, Expr.emit]
    exact exists_ok_bind (hc hn.1.1 _) fun _ => exists_ok_bind (hf hn.2 _) fun _ =>
      exists_ok_bind (ht hn.1.2 _) fun _ => ⟨_, rfl⟩
  | ident line name b =>
    obtain ⟨e, hx⟩ := Env.lookup_of_useErrors hn
    have hb : env.binding? name = some ⟨e, env.level⟩ := by rw [Env.binding?, hx]; rfl
    rw [Expr.bind, Expr.emit]
    exact exists_ok_bind (exists_requireBound hb) fun _ => ⟨_, rfl⟩
  | call line name args b hargs =>
    rw [Expr.nameErrors, List.append_eq_nil_iff] at hn
    obtain ⟨e, hx⟩ := Env.lookup_of_useErrors hn.1
    have hb : env.binding? name = some ⟨e, env.level⟩ := by rw [Env.binding?, hx]; rfl
    have hcode := Expr.exists_emitReversed fun e he => hargs e he (forall_nameErrors hn.2 e he)
    rw [Expr.bind, Expr.emit]
    exact exists_ok_bind (exists_requireBound hb) fun _ =>
      exists_ok_bind (hcode n) fun _ => ⟨_, rfl⟩
  | send line receiver method args b hargs =>
    rw [Expr.nameErrors, List.append_eq_nil_iff] at hn
    obtain ⟨e, cls, l, m, -, -, -, -, hb⟩ := Env.methodBinding_of_sendErrors hn.1
    have hcode := Expr.exists_emitReversed fun e he => hargs e he (forall_nameErrors hn.2 e he)
    rw [Expr.bind, Expr.emit]
    exact exists_ok_bind (exists_requireBound hb) fun _ =>
      exists_ok_bind (hcode n) fun _ => ⟨_, rfl⟩
  | new line cls args entry hargs =>
    rw [Expr.nameErrors, List.append_eq_nil_iff] at hn
    obtain ⟨e, hb⟩ := Env.entry_of_newErrors hn.1
    have hcode := Expr.exists_emitAll fun e he => hargs e he (forall_nameErrors hn.2 e he)
    rw [Expr.bind, Expr.emit]
    exact exists_ok_bind (exists_requireBound hb) fun _ =>
      exists_ok_bind (hcode n) fun _ => ⟨_, rfl⟩

/-- Where a routine is stored does not matter to its block. -/
theorem Routine.emitBlock_offset (size n k : Nat) (f : Routine) (offset : Option Int) :
    Routine.emitBlock size n k { f with offset := offset } = f.emitBlock size n k := by
  cases f
  simp only [Routine.emitBlock]

/-- Code is emitted for the declaration wherever its names are in order. -/
def Decl.IsEmitted (size : Nat) (d : Decl) : Prop :=
  ∀ env n k, d.nameErrors env = [] → ∃ code, (d.bind env).emit size n k = .ok code

theorem Decl.exists_emitAll {size : Nat} {ds : List Decl} (hs : ∀ d ∈ ds, d.IsEmitted size)
    {env : Env} (hn : Decl.nameErrorsAll env ds = []) (n k : Nat) :
    ∃ code, Decl.emitAll size n k (Decl.bindAll env ds) = .ok code := by
  induction ds generalizing env n k with
  | nil => exact ⟨.empty, by rw [Decl.bindAll, Decl.emitAll]⟩
  | cons d ds ih =>
    rw [Decl.nameErrorsAll, List.append_eq_nil_iff] at hn
    rw [Decl.bindAll, Decl.emitAll]
    exact exists_ok_bind (hs d List.mem_cons_self env n k hn.1) fun _ =>
      exists_ok_bind (ih (fun d hd => hs d (List.mem_cons_of_mem _ hd)) hn.2 _ _) fun _ => ⟨_, rfl⟩

theorem Routine.exists_emitBlock {size : Nat} {f : Routine} (hs : ∀ d ∈ f.decls, d.IsEmitted size)
    {env : Env} (hn : f.innerErrors env = []) (n k : Nat) :
    ∃ code, (f.bindInner env).emitBlock size n k = .ok code := by
  obtain ⟨name, params, ret, decls, body, line, offset⟩ := f
  rw [Routine.innerErrors, List.append_eq_nil_iff, List.append_eq_nil_iff] at hn
  simp only [Routine.bindInner, Routine.emitBlock]
  exact exists_ok_bind (Decl.exists_emitAll hs hn.1.2 _ _) fun _ =>
    exists_ok_bind (body.exists_emit size hn.2 _) fun _ => ⟨_, rfl⟩

theorem Decl.isEmitted (size : Nat) (d : Decl) : d.IsEmitted size := by
  induction d using Decl.ind with
  | var v =>
    intro env n k hn
    rw [Decl.nameErrors, List.append_eq_nil_iff, List.append_eq_nil_iff] at hn
    rw [Decl.bind, Decl.emit]
    exact exists_ok_bind (v.init.exists_emit size hn.1.2 n) fun _ => ⟨_, rfl⟩
  | fn f hf =>
    intro env n k hn
    rw [Decl.nameErrors, List.append_eq_nil_iff] at hn
    rw [Decl.bind, Decl.emit, Routine.emitBlock_offset]
    exact exists_ok_bind (Routine.exists_emitBlock hf hn.2 n k) fun _ => ⟨_, rfl⟩

/-! ### Offsets of members -/

/-- Among the members there is a field of the given name that has the type of a method. -/
def MethodField (members : List Declaration) (name : String) : Prop :=
  ∃ f, .field f ∈ members ∧ f.name = name ∧ f.ty.isMethod = true

theorem methodField_append {members members' : List Declaration} {name : String} :
    MethodField (members ++ members') name ↔
      MethodField members name ∨ MethodField members' name := by
  simp [MethodField, or_and_right, exists_or]

theorem methodField_method (m : Routine) (members : List Declaration) (name : String) :
    MethodField (.method m :: members) name ↔ MethodField members name := by
  simp [MethodField]

theorem methodField_field (f : TypedName) (members : List Declaration) (name : String) :
    MethodField (.field f :: members) name ↔
      (f.name = name ∧ f.ty.isMethod = true) ∨ MethodField members name := by
  simp [MethodField, or_and_right, exists_or]

theorem ClassDecl.overridesMethodField_iff {before : List ClassDecl} {c : ClassDecl} :
    c.OverridesMethodField before ↔
      ∃ m ∈ c.methods, MethodField (c.inheritedMembers before) m.name := by
  have hfield : ∀ f, Declaration.field f ∈ c.inheritedMembers before ↔
      ∃ a ∈ c.superclass.elim [] (lineage before), f ∈ a.fields := by
    intro f
    unfold ClassDecl.inheritedMembers
    cases c.superclass with
    | none => simp
    | some cls => simp [membersOf, ClassDecl.ownMembers]
  simp only [ClassDecl.OverridesMethodField, MethodField, hfield]
  grind

namespace Layout

/-- A member has a negative offset if it is a field, and if it is a method then exactly if it was
once declared as a field. -/
structure Signed (members : List Declaration) (l : Layout) : Prop where
  field : ∀ {name : String} {e : Entry}, l.member? name = some e → e.isMethod = false →
    e.offset < 0
  method : ∀ name, MethodField members name ↔
    ∃ e, l.member? name = some e ∧ e.isMethod = true ∧ e.offset < 0

theorem signed_empty : Signed [] empty where
  field h := by simp [empty, member?] at h
  method name := by simp [MethodField, empty, member?]

namespace Signed

variable {members : List Declaration} {l : Layout} (h : l.Signed members)
include h

theorem methodOffset_neg_iff (name : String) :
    l.methodOffset name < 0 ↔ MethodField members name := by
  rw [h.method, methodOffset]
  cases hm : l.member? name with
  | none => simp
  | some e => cases hk : e.isMethod <;> simp [hk]

theorem fieldOffset_neg (name : String) : l.fieldOffset name < 0 := by
  rw [fieldOffset]
  cases hm : l.member? name with
  | none => simp only; omega
  | some e =>
    cases hk : e.isMethod with
    | true => simp only [hk, ↓reduceIte]; omega
    | false => simpa [hk] using h.field hm hk

theorem addField {level : Nat} {f : TypedName}
    (hp : l.placement (.field f.name f.ty level) ≠ .clash) :
    (l.add (.field f.name f.ty level)).Signed (.field f :: members) := by
  have hneg : (l.slotOf (.field f.name f.ty level)).entry.offset < 0 := h.fieldOffset_neg f.name
  refine ⟨fun {name e} he hk => ?_, fun name => ?_⟩
  · rw [member?_add] at he
    split at he
    · cases he
      exact hneg
    · exact h.field he hk
  · rw [methodField_field, member?_add, Addition.name]
    by_cases hname : name = f.name
    · subst hname
      -- what the field overrides is not a method
      have hold : ¬ MethodField members f.name := by
        rw [h.method]
        rintro ⟨e, he, hk, -⟩
        rw [memberKind_eq_iff.1 (placement_ne_clash_iff.1 hp e he)] at hk
        cases hk
      rw [if_pos rfl]
      simp only [true_and, hold, or_false, Option.some.injEq, exists_eq_left', hneg, and_true]
      rfl
    · rw [if_neg hname, ← h.method]
      simp [Ne.symm hname]

theorem addMethod (level : Nat) (m : Routine) :
    (l.add (.method m.name m.signature level)).Signed (.method m :: members) := by
  refine ⟨fun {name e} he hk => ?_, fun name => ?_⟩
  · rw [member?_add] at he
    split at he
    · cases he
      cases hk
    · exact h.field he hk
  · rw [methodField_method, member?_add, Addition.name]
    by_cases hname : name = m.name
    · rw [if_pos hname, hname, ← h.methodOffset_neg_iff]
      simp [slotOf, offsetOf, Addition.ty, Entry.isMethod, Ty.isMethod]
    · rw [if_neg hname, h.method]

theorem addFields {level : Nat} {fs : List TypedName}
    (hfits : l.Fits (fs.map fun f => .field f.name f.ty level)) :
    (l.addFields level fs).Signed ((fs.map .field).reverse ++ members) := by
  induction fs generalizing l members with
  | nil => exact h
  | cons f fs ih =>
    rw [List.map_cons, List.reverse_cons, List.append_assoc, List.singleton_append]
    exact ih (h.addField hfits.1) hfits.2

theorem addMethods (level : Nat) (ms : List Routine) :
    (l.addMethods level ms).Signed ((ms.map .method).reverse ++ members) := by
  induction ms generalizing l members with
  | nil => exact h
  | cons m ms ih =>
    rw [List.map_cons, List.reverse_cons, List.append_assoc, List.singleton_append]
    exact ih (h.addMethod level m)

end Signed

end Layout

/-! ### Classes -/

theorem Routine.emits_slot (m : Routine) {offset : Int} (h : m.offset = some offset) :
    Emits (offset < 0) m.slot := by
  unfold Routine.slot
  rw [h]
  cases offset with
  | ofNat slot => exact (Emits.of_ok ⟨slot, rfl⟩).congr (by simp)
  | negSucc i =>
    exact ⟨fun hneg => absurd (Int.negSucc_lt_zero i) hneg, fun _ => ⟨m.line, m.name, rfl⟩⟩

/-- The methods of a class are emitted, unless one of them has the name of a field with the type of
a method. -/
theorem emits_methods {env : Env} {members : List Declaration} {l : Layout}
    (hl : l.Signed members) {ms : List Routine} (hinner : ∀ m ∈ ms, m.innerErrors env = [])
    (size level n k : Nat) (table : DispatchTable) :
    Emits (∃ m ∈ ms, MethodField members m.name)
      (emitMethods size n k table ((l.placeMethods level ms).map (Routine.bindInner env))) := by
  induction ms generalizing l members n k table with
  | nil => exact (Emits.of_ok ⟨_, rfl⟩).congr (by simp)
  | cons m ms ih =>
    rw [List.forall_mem_cons] at hinner
    rw [Layout.placeMethods, List.map_cons, Routine.bindInner_offset, emitMethods,
      Routine.emitBlock_offset]
    have hslot := Routine.emits_slot
      { m.bindInner env with offset := some (l.methodOffset m.name) } rfl
    have hblock := Emits.of_ok (Routine.exists_emitBlock (fun d _ => d.isEmitted size) hinner.1 n k)
    have hrest := ih (hl.addMethod level m) hinner.2
    refine (hslot.bind fun slot => hblock.bind fun block => (hrest _ _ _).bind fun rest =>
      Emits.of_ok ⟨_, rfl⟩).congr ?_
    simp only [hl.methodOffset_neg_iff, methodField_method, List.mem_cons, exists_eq_or_imp,
      false_or, or_false]

/-- What is known before a class, on the side of names and on the side of code. -/
structure Prepared (before : List ClassDecl) (env : Env) (tables : NameMap DispatchTable) :
    Prop where
  signed : ∀ cls, ((env.classes.layout? cls).getD .empty).Signed (membersOf before cls)
  table : ∀ cls, env.classes.contains cls = true → ∃ table, tables.get? cls = some table

theorem prepared_start : Prepared [] (Env.empty.enter .empty) .empty where
  signed _ := Layout.signed_empty
  table cls h := by simp [Env.empty, Env.enter, ClassTable.empty, ClassTable.contains,
    NameMap.contains] at h

namespace Prepared

variable {before : List ClassDecl} {env : Env} {tables : NameMap DispatchTable}
  (h : Prepared before env tables) {c : ClassDecl}
include h

theorem signed_inherited (c : ClassDecl) :
    (c.inherited env).Signed (c.inheritedMembers before) := by
  unfold ClassDecl.inherited ClassDecl.inheritedMembers
  cases c.superclass with
  | none => exact Layout.signed_empty
  | some cls => exact h.signed cls

theorem signed_fieldLayout (hn : c.memberErrors env = []) :
    (c.fieldLayout env).Signed ((c.fields.map .field).reverse ++ c.inheritedMembers before) := by
  obtain ⟨-, -, -, hfits⟩ := ClassDecl.memberErrors_eq_nil_iff.1 hn
  exact (h.signed_inherited c).addFields (Layout.fits_append.1 hfits).1

theorem extend (hn : c.memberErrors env = []) (table : DispatchTable) :
    Prepared (c :: before) (c.extend env) (tables.insert c.name table) where
  signed cls := by
    rw [membersOf_cons, ClassDecl.extend, ClassTable.layout?, ClassTable.insert,
      NameMap.get?_insert]
    split
    · rw [ClassDecl.ownMembers, List.append_assoc]
      exact (h.signed_fieldLayout hn).addMethods _ c.methods
    · exact h.signed cls
  table cls hcls := by
    rw [NameMap.get?_insert]
    by_cases hname : cls = c.name
    · exact ⟨table, if_pos hname⟩
    · rw [if_neg hname]
      refine h.table cls ?_
      simpa [ClassDecl.extend, ClassTable.contains, NameMap.contains, ClassTable.insert,
        NameMap.get?_insert, hname] using hcls

theorem exists_inheritedTable (hn : c.superclassErrors env = []) :
    ∃ table, (c.bind env).inheritedTable tables = .ok table := by
  unfold ClassDecl.superclassErrors at hn
  unfold ClassDecl.inheritedTable ClassDecl.bind
  cases hs : c.superclass with
  | none => exact ⟨[], rfl⟩
  | some cls =>
    rw [hs] at hn
    simp only at hn
    split at hn
    · rename_i hknown
      obtain ⟨table, htable⟩ := h.table cls hknown
      exact ⟨table, by simp [htable]⟩
    · cases hn

/-- A class is emitted, unless it overrides a field with the type of a method by a method. -/
theorem emits_class {size : Nat} (hn : c.nameErrors env = []) (n k : Nat) :
    Emits (c.OverridesMethodField before) ((c.bind env).emit size n k tables) := by
  simp only [ClassDecl.nameErrors, List.append_eq_nil_iff] at hn
  obtain ⟨⟨⟨hsuper, hmembers⟩, -⟩, hinner⟩ := hn
  rw [List.flatMap_eq_nil_iff] at hinner
  have htable := Emits.of_ok (h.exists_inheritedTable hsuper)
  have hmethods :=
    emits_methods (h.signed_fieldLayout hmembers) hinner size (ClassDecl.innerLevel env) n k
  -- a method does not have the name of a field of its own class
  have hown : ∀ m ∈ c.methods, ¬ MethodField (c.fields.map Declaration.field).reverse m.name := by
    rintro m hm ⟨f, hf, hname, -⟩
    obtain ⟨-, -, hnames, -⟩ := ClassDecl.memberErrors_eq_nil_iff.1 hmembers
    have hf' : f ∈ c.fields := by simpa using hf
    exact (List.nodup_append.1 hnames).2.2 f.name (List.mem_map_of_mem hf') m.name
      (List.mem_map_of_mem hm) hname
  rw [ClassDecl.emit]
  refine (htable.bind fun table => (hmethods table).bind fun code =>
    Emits.of_ok ⟨_, rfl⟩).congr ?_
  rw [ClassDecl.overridesMethodField_iff, false_or, or_false]
  refine exists_congr fun m => and_congr_right fun hm => ?_
  rw [methodField_append, or_iff_right (hown m hm)]

end Prepared

theorem exists_split_cons {α : Type} {P : List α → α → Prop} {a : α} {as : List α} :
    (∃ before b after, a :: as = before ++ b :: after ∧ P before b) ↔
      P [] a ∨ ∃ before b after, as = before ++ b :: after ∧ P (a :: before) b := by
  simp only [List.cons_eq_append_iff]
  grind

theorem ClassDecl.emits_all {before : List ClassDecl} {env : Env}
    {tables : NameMap DispatchTable} (h : Prepared before env tables) {cs : List ClassDecl}
    (hn : ClassDecl.nameErrorsAll env cs = []) (size n k : Nat) :
    Emits (∃ earlier c later, cs = earlier ++ c :: later ∧
        c.OverridesMethodField (earlier.reverse ++ before))
      (ClassDecl.emitAll size n k tables (ClassDecl.bindAll env cs)) := by
  induction cs generalizing before env tables n k with
  | nil => exact (Emits.of_ok ⟨Fragment.empty, rfl⟩).congr (by simp)
  | cons c cs ih =>
    rw [ClassDecl.nameErrorsAll, List.append_eq_nil_iff] at hn
    have hmembers : c.memberErrors env = [] := by
      have hclass := hn.1
      simp only [ClassDecl.nameErrors, List.append_eq_nil_iff] at hclass
      exact hclass.1.1.2
    have hrest := fun table => ih (h.extend hmembers table) hn.2
    rw [ClassDecl.bindAll, ClassDecl.emitAll, exists_split_cons]
    refine ((h.emits_class hn.1 n k).bind fun code => (hrest code.1 _ _).bind fun rest =>
      Emits.of_ok ⟨_, rfl⟩).congr ?_
    simp only [List.reverse_cons, List.reverse_nil, List.nil_append, List.append_assoc,
      List.singleton_append, or_false]

/-! ### Programs -/

namespace Program

section

variable {p : Program} (hn : p.nameErrors = [])
include hn

/-- A program whose names are in order is emitted, unless one of its classes overrides a field with
the type of a method by a method. -/
theorem emits (size : Nat) : Emits p.OverridesMethodField (p.bind.emit size) := by
  simp only [nameErrors, nameErrorsIn, List.append_eq_nil_iff] at hn
  obtain ⟨⟨hclasses, hdecls⟩, hmain⟩ := hn
  cases p with
  | body main =>
    refine (Emits.of_ok ?_).congr (by simp [OverridesMethodField, Program.classes])
    exact exists_ok_bind (main.exists_emit size hmain 0) fun _ => ⟨_, rfl⟩
  | letIn classes decls main =>
    have htables := ClassDecl.emits_all prepared_start hclasses size 0 0
    simp only [List.append_nil] at htables
    refine (htables.bind fun tables => Emits.of_ok ?_).congr (by rw [or_false]; rfl)
    exact exists_ok_bind (Decl.exists_emitAll (fun d _ => d.isEmitted size) hdecls _ _) fun _ =>
      exists_ok_bind (main.exists_emit size hmain _) fun _ => ⟨_, rfl⟩

theorem exists_check : (∃ ty, p.bind.check = .ok (some ty)) ∨
    ∃ errors, errors ≠ [] ∧ p.bind.check = .error errors := by
  simp only [nameErrors, nameErrorsIn, List.append_eq_nil_iff] at hn
  have hmain : p.bind.main = p.main.bind (p.mainEnv .empty) := by cases p <;> rfl
  have hbound : IsBound (p.bind.main.infer p.bind.hierarchy) := by
    rw [hmain]
    exact p.main.isBound_infer hn.2
  unfold check
  cases herrors : p.bind.declErrors ++ reported (p.bind.main.infer p.bind.hierarchy) with
  | nil =>
    -- without errors the type is that of the expression, which has no unbound name in it
    obtain ⟨ty, hty⟩ := hbound.ok_of_reported (List.append_eq_nil_iff.1 herrors).2
    refine .inl ⟨ty, ?_⟩
    rw [hty] at herrors ⊢
    simp only [herrors]
    rfl
  | cons e es => exact .inr ⟨e :: es, List.cons_ne_nil e es, by simp only [herrors]⟩

end

/-- **Programs without naming errors are never left without an answer.**  Type checking gives a type
or errors, never neither.  Emission gives code, except that a method has no slot if and only if some
class overrides a field with the type of a method by a method. -/
theorem outcome_of_nameErrors {p : Program} (hn : p.nameErrors = []) :
    ((∃ ty, p.bind.check = .ok (some ty)) ∨
      ∃ errors, errors ≠ [] ∧ p.bind.check = .error errors) ∧
    ∀ memorySize,
      (p.OverridesMethodField →
        ∃ line method, p.bind.emit memorySize = .error (.noSlot line method)) ∧
      (¬ p.OverridesMethodField → ∃ code, p.bind.emit memorySize = .ok code) := by
  refine ⟨exists_check hn, fun memorySize => ?_⟩
  have hemits := emits hn memorySize
  exact ⟨hemits.error, hemits.ok⟩

/-- A class with a field that has the type of a method, and one that overrides it by a method two
classes further down. -/
def overriding : Program :=
  .letIn
    [{ name := "Figure", fields := [{ name := "area", ty := .method ⟨[], .int⟩ }], methods := [] },
     { name := "Polygon", superclass := some "Figure", fields := [], methods := [] },
     { name := "Square"
       superclass := some "Polygon"
       fields := []
       methods := [{ name := "area", params := [], ret := .int, decls := [], body := .int 0 4 }] }]
    [] (.int 0 0)

theorem outcome_of_nameErrors_overriding :
    overriding.nameErrors = [] ∧ overriding.OverridesMethodField ∧
      overriding.bind.declErrors = [] ∧
      ∃ line method, overriding.bind.emit 100 = .error (.noSlot line method) := by
  have hn : overriding.nameErrors = [] := rfl
  have hoverrides : overriding.OverridesMethodField := by
    refine ⟨overriding.classes.take 2, _, [], rfl, ?_⟩
    unfold ClassDecl.OverridesMethodField
    decide
  exact ⟨hn, hoverrides, rfl, ((outcome_of_nameErrors hn).2 100).1 hoverrides⟩

end Program

end ObjectLang
