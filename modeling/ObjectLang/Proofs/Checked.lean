import ObjectLang.Naming.Program
import ObjectLang.Proofs.Code.Outline
import ObjectLang.Tree.Notes
import ObjectLang.Typing.Program
import Mathlib.Data.List.Forall2

/-!
# Trees without errors have types

Type checking passes over what has an unbound name in it.  Where nothing is missing in a tree there
is no such thing (`Expr.isBound_of_isFilled`), so what has no type error either has a type.
Conversely, nothing is missing in what has a type (`Expr.isFilled_of_infer`).
-/

namespace ObjectLang

/-! ### Uses of names -/

namespace Env

variable {env : Env}

theorem lookup_of_useErrors {kind : NameKind} {name : String} {line : SourceLine}
    (h : env.useErrors kind name line = []) : ∃ e, env.scopes.lookup name = some e := by
  unfold Env.useErrors at h
  split at h
  · cases h
  · rename_i hn
    exact Option.ne_none_iff_exists'.1 (by simpa using hn)

theorem methodBinding_of_sendErrors {receiver method : String} {line : SourceLine}
    (h : env.sendErrors receiver method line = []) :
    ∃ e cls l m, env.scopes.lookup receiver = some e ∧ e.ty = .ref cls ∧
      env.classes.layout? cls = some l ∧ l.member? method = some m ∧
      env.methodBinding? receiver method = some ⟨e, m, env.level⟩ := by
  unfold Env.sendErrors at h
  unfold Env.methodBinding?
  cases hb : env.methodBinding receiver method with
  | error fault => simp [hb] at h
  | ok b =>
    unfold Env.methodBinding at hb
    split at hb
    · cases hb
    · rename_i e hx
      split at hb
      · rename_i cls hty
        split at hb
        · cases hb
        · rename_i m hm
          obtain ⟨l, hl, hm⟩ := Option.bind_eq_some_iff.1 hm
          cases hb
          exact ⟨e, cls, l, m, hx, hty, hl, (Option.filter_eq_some_iff.1 hm).1, rfl⟩
      · cases hb

theorem entry_of_newErrors {cls : String} {line : SourceLine}
    (h : env.newErrors cls line = []) : ∃ e, env.classes.entry? cls = some e := by
  unfold Env.newErrors at h
  split at h
  · cases h
  · rename_i hn
    exact Option.ne_none_iff_exists'.1 (by simpa using hn)

end Env

/-! ### Types -/

/-- The outcome is not that of an unbound name. -/
def IsBound {α : Type} (x : Except Untyped α) : Prop := x ≠ .error .unbound

variable {α β : Type} {h : Hierarchy} {env : Env}

theorem IsBound.ok (a : α) : IsBound (.ok a) := by simp [IsBound]

theorem IsBound.illTyped (line : SourceLine) (fault : TypeFault) :
    IsBound (illTyped line fault : Except Untyped α) := by simp [IsBound, ObjectLang.illTyped]

theorem IsBound.bind {x : Except Untyped α} {f : α → Except Untyped β} (hx : IsBound x)
    (hf : ∀ a, x = .ok a → IsBound (f a)) : IsBound (x >>= f) := by
  cases x with
  | error e =>
    intro he
    exact hx (by simpa [Bind.bind, Except.bind] using he)
  | ok a => exact hf a rfl

/-- An outcome that is neither unbound nor reported is a result. -/
theorem IsBound.ok_of_reported {x : Except Untyped α} (hx : IsBound x) (hr : reported x = []) :
    ∃ a, x = .ok a := by
  cases x with
  | ok a => exact ⟨a, rfl⟩
  | error e =>
    cases e with
    | unbound => exact absurd rfl hx
    | wrong e => cases hr

theorem valueType_ok {line : SourceLine} {name : String} {ty ty' : Ty}
    (h : valueType line name ty = .ok ty') :
    ty' = ty ∧ ty.signature? = none ∧ ty.shape? = none := by
  cases ty <;> simp_all [valueType, illTyped, Ty.signature?, Ty.shape?]

theorem callSignature_ok {line : SourceLine} {name : String} {ty : Ty} {sig : Signature}
    (h : callSignature line name ty = .ok sig) : ty.signature? = some sig := by
  unfold callSignature at h
  split at h
  · simp_all
  · cases h

theorem callType_ok {line : SourceLine} {name : String} {sig : Signature} {count : Nat}
    {checked : Except Untyped Unit} {ty : Ty} (h : callType line name sig count checked = .ok ty) :
    ty = sig.ret ∧ sig.params.length = count ∧ checked = .ok () := by
  unfold callType at h
  split at h
  · rename_i hlen
    cases checked with
    | error => cases h
    | ok u =>
      simp only [Except.map, Except.ok.injEq] at h
      exact ⟨h.symm, hlen, rfl⟩
  · cases h

theorem checkArgs_ok {line : SourceLine} {name : String} {position : Nat} {es : List Expr}
    {tys : List Ty} (hlen : tys.length = es.length)
    (hc : Expr.checkArgs h line name position es tys = .ok ()) :
    List.Forall₂ (fun e ty => ∃ found, e.infer h = .ok found ∧ h.isSubtype found ty = true)
      es tys := by
  induction es generalizing tys position with
  | nil =>
    obtain rfl := List.length_eq_zero_iff.1 hlen
    exact .nil
  | cons e es ih =>
    obtain _ | ⟨ty, tys⟩ := tys
    · cases hlen
    simp only [Expr.checkArgs, bind_ok_iff] at hc
    obtain ⟨found, hf, hrest⟩ := hc
    split at hrest
    · rename_i hsub
      exact .cons ⟨found, hf, hsub⟩ (ih (by simpa using hlen) hrest)
    · cases hrest

/-- The arguments of a call that has a type are of the types of the parameters. -/
theorem args_of_callType {line : SourceLine} {name : String} {sig : Signature} {position : Nat}
    {es : List Expr} {ty : Ty} (hc : callType line name sig es.length
      (Expr.checkArgs h line name position es sig.params) = .ok ty) :
    ty = sig.ret ∧ List.Forall₂
      (fun e ty => ∃ found, e.infer h = .ok found ∧ h.isSubtype found ty = true)
      es sig.params := by
  obtain ⟨hty, hlen, hargs⟩ := callType_ok hc
  exact ⟨hty, checkArgs_ok hlen hargs⟩

/-- The arguments of a call that has a type have types. -/
theorem infer_ok_of_callType {line : SourceLine} {name : String} {sig : Signature}
    {position : Nat} {es : List Expr} {ty : Ty} (hc : callType line name sig es.length
      (Expr.checkArgs h line name position es sig.params) = .ok ty) :
    ∀ e ∈ es, ∃ ty, e.infer h = .ok ty := by
  intro e he
  obtain ⟨-, hargs⟩ := args_of_callType hc
  obtain ⟨i, hi, rfl⟩ := List.getElem_of_mem he
  obtain ⟨found, hf, -⟩ := hargs.get hi (hargs.length_eq ▸ hi)
  exact ⟨found, hf⟩

theorem isBound_callType {line : SourceLine} {name : String} {s : Signature} {count : Nat}
    {checked : Except Untyped Unit} (hc : IsBound checked) :
    IsBound (callType line name s count checked) := by
  unfold callType
  split
  · cases checked with
    | ok u => exact .ok _
    | error e =>
      intro he
      exact hc (by simpa [Except.map] using he)
  · exact .illTyped line _

theorem isBound_checkArgs {es : List Expr} (hes : ∀ e ∈ es, IsBound (e.infer h))
    {line : SourceLine} {name : String} {position : Nat} {tys : List Ty} :
    IsBound (Expr.checkArgs h line name position es tys) := by
  induction es generalizing tys position with
  | nil => exact .ok _
  | cons e es ih =>
    obtain _ | ⟨ty, tys⟩ := tys
    · exact .ok _
    refine IsBound.bind (hes e List.mem_cons_self) fun found _ => ?_
    split
    · exact ih fun e he => hes e (List.mem_cons_of_mem _ he)
    · exact .illTyped line _

/-- Two operands, and a check of their types. -/
theorem isBound_operands {x y : Except Untyped Ty} {f : Ty → Ty → Except Untyped Ty}
    (hx : IsBound x) (hy : IsBound y) (hf : ∀ a b, IsBound (f a b)) :
    IsBound (do let a ← x; let b ← y; f a b) :=
  hx.bind fun a _ => hy.bind fun b _ => hf a b

theorem isBound_ite {c : Bool} {ty : Ty} {line : SourceLine} {fault : TypeFault} :
    IsBound (if c then .ok ty else illTyped line fault) := by
  split
  · exact .ok _
  · exact .illTyped line _

/-- No argument has an unbound name in it. -/
theorem isBound_all {es : List Expr}
    (hes : ∀ e ∈ es, (∀ n ∈ e.notes, n.isFilled = true) → IsBound (e.infer h))
    (hn : ∀ n ∈ Expr.notesAll es, n.isFilled = true) : ∀ e ∈ es, IsBound (e.infer h) := by
  rw [Expr.notesAll_eq_flatMap, List.forall_mem_flatMap] at hn
  exact fun e he => hes e he (hn e he)

/-- An expression in which nothing is missing has no unbound name. -/
theorem Expr.isBound_of_isFilled (e : Expr) (hn : ∀ n ∈ e.notes, n.isFilled = true) :
    IsBound (e.infer h) := by
  induction e using Expr.ind with
  | int | bool | null => exact .ok _
  | arith line op l r hl hr | compare line op l r hl hr | logic line op l r hl hr =>
    simp only [Expr.notes, List.forall_mem_append] at hn
    rw [Expr.infer]
    exact isBound_operands (hl hn.1) (hr hn.2) fun a b => isBound_ite
  | not line e he =>
    rw [Expr.infer]
    exact (he hn).bind fun _ _ => isBound_ite
  | cond line c t f hc ht hf =>
    simp only [Expr.notes, List.forall_mem_append] at hn
    rw [Expr.infer]
    refine (hc hn.1.1).bind fun test _ => IsBound.bind ?_ fun _ _ =>
      isBound_operands (ht hn.1.2) (hf hn.2) fun yes no => ?_
    · unfold Hierarchy.checkCondition
      split
      · exact .ok _
      · exact .illTyped line _
    · unfold Hierarchy.branchType
      split
      · exact .ok _
      · exact .illTyped line _
  | print line e he => exact he hn
  | ident line name b =>
    obtain ⟨b, rfl⟩ := Option.isSome_iff_exists.1 (hn _ List.mem_cons_self)
    rw [Expr.infer]
    refine (IsBound.ok b).bind fun b _ => ?_
    cases b.entry.ty <;> first | exact .ok _ | exact .illTyped line _
  | call line name args b hargs =>
    obtain ⟨hb, hrest⟩ := List.forall_mem_cons.1 hn
    obtain ⟨b, rfl⟩ := Option.isSome_iff_exists.1 hb
    rw [Expr.infer]
    refine (IsBound.ok b).bind fun b _ => IsBound.bind ?_ fun s _ =>
      isBound_callType (isBound_checkArgs (isBound_all hargs hrest))
    unfold callSignature
    split
    · exact .ok _
    · exact .illTyped line _
  | send line receiver method args b hargs =>
    obtain ⟨hb, hrest⟩ := List.forall_mem_cons.1 hn
    obtain ⟨b, rfl⟩ := Option.isSome_iff_exists.1 hb
    rw [Expr.infer]
    refine (IsBound.ok b).bind fun b _ => IsBound.bind ?_ fun s _ =>
      isBound_callType (isBound_checkArgs (isBound_all hargs hrest))
    cases b.method.ty <;> first | exact .ok _ | exact .illTyped line _
  | new line cls args entry hargs =>
    obtain ⟨he, hrest⟩ := List.forall_mem_cons.1 hn
    obtain ⟨entry, rfl⟩ := Option.isSome_iff_exists.1 he
    rw [Expr.infer]
    refine (IsBound.ok entry).bind fun entry _ => IsBound.bind ?_ fun s _ =>
      isBound_callType (isBound_checkArgs (isBound_all hargs hrest))
    unfold newSignature
    split
    · exact .ok _
    · exact .illTyped line _

theorem bound_ok {b : Option α} {a : α} (h : bound b = .ok a) : b = some a := by
  cases b with
  | none => cases h
  | some b => exact congrArg some (Except.ok.inj h)

/-- Nothing is missing in the arguments of a call that has a type. -/
theorem isFilled_of_callType {es : List Expr}
    (hes : ∀ e ∈ es, ∀ {ty}, e.infer h = .ok ty → ∀ n ∈ e.notes, n.isFilled = true)
    {line : SourceLine} {name : String} {sig : Signature} {position : Nat} {ty : Ty}
    (hc : callType line name sig es.length
      (Expr.checkArgs h line name position es sig.params) = .ok ty) :
    ∀ n ∈ Expr.notesAll es, n.isFilled = true := by
  rw [Expr.notesAll_eq_flatMap, List.forall_mem_flatMap]
  intro e he
  obtain ⟨ty, hty⟩ := infer_ok_of_callType hc e he
  exact hes e he hty

/-- **Nothing is missing in an expression that has a type.** -/
theorem Expr.isFilled_of_infer {e : Expr} {ty : Ty} (ht : e.infer h = .ok ty) :
    ∀ n ∈ e.notes, n.isFilled = true := by
  induction e using Expr.ind generalizing ty with
  | int | bool | null => simp [Expr.notes]
  | arith line op l r hl hr | compare line op l r hl hr | logic line op l r hl hr =>
    simp only [Expr.infer, bind_ok_iff] at ht
    obtain ⟨left, hleft, right, hright, -⟩ := ht
    rw [Expr.notes, List.forall_mem_append]
    exact ⟨hl hleft, hr hright⟩
  | not line e he =>
    simp only [Expr.infer, bind_ok_iff] at ht
    obtain ⟨operand, hoperand, -⟩ := ht
    exact he hoperand
  | cond line c t f hc ht' hf =>
    simp only [Expr.infer, bind_ok_iff] at ht
    obtain ⟨test, htest, -, -, yes, hyes, no, hno, -⟩ := ht
    rw [Expr.notes, List.forall_mem_append, List.forall_mem_append]
    exact ⟨⟨hc htest, ht' hyes⟩, hf hno⟩
  | print line e he => exact he ht
  | ident line name b =>
    simp only [Expr.infer, bind_ok_iff] at ht
    obtain ⟨b', hb, -⟩ := ht
    rw [Expr.notes, List.forall_mem_singleton, bound_ok hb]
    rfl
  | call line name args b hargs | send line receiver name args b hargs
  | new line name args b hargs =>
    simp only [Expr.infer, bind_ok_iff] at ht
    obtain ⟨b', hb, sig, -, hcall⟩ := ht
    rw [Expr.notes, List.forall_mem_cons, bound_ok hb]
    exact ⟨rfl, isFilled_of_callType hargs hcall⟩

/-- A value that is checked against a type, without a report. -/
theorem infer_ok_of_reported {x : Except Untyped Ty} {ty : Ty} {line : SourceLine}
    {fault : Ty → TypeFault} (hb : IsBound x)
    (hr : reported (do
      let found ← x
      if h.isSubtype found ty then .ok () else illTyped line (fault found)) = []) :
    ∃ found, x = .ok found ∧ h.isSubtype found ty = true := by
  have hcheck : IsBound (do
      let found ← x
      if h.isSubtype found ty then Except.ok () else illTyped line (fault found)) := by
    refine hb.bind fun found _ => ?_
    split
    · exact .ok _
    · exact .illTyped line _
  obtain ⟨u, hu⟩ := hcheck.ok_of_reported hr
  obtain ⟨found, hf, hsub⟩ := bind_ok_iff.1 hu
  refine ⟨found, hf, ?_⟩
  split at hsub
  · assumption
  · cases hsub

theorem Variable.check_ok {v : Variable} (hb : IsBound (v.init.infer h))
    (hr : reported (v.check h) = []) :
    ∃ found, v.init.infer h = .ok found ∧ h.isSubtype found v.ty = true :=
  infer_ok_of_reported hb hr

theorem checkBody_ok {name : String} {line : SourceLine} {ret : Ty} {body : Expr}
    (hb : IsBound (body.infer h)) (hr : reported (checkBody h name line ret body) = []) :
    ∃ found, body.infer h = .ok found ∧ h.isSubtype found ret = true :=
  infer_ok_of_reported hb hr

theorem Routine.typeErrors_offset (f : Routine) (offset : Option Int) :
    Routine.typeErrors h { f with offset := offset } = f.typeErrors h := by
  cases f
  simp only [Routine.typeErrors]

/-! ### Overridden members -/

theorem ClassDecl.checkFields_ok {c : ClassDecl} {index : Nat} {inherited own : List Ty}
    (hr : reported (c.checkFields h index inherited own) = []) :
    c.checkFields h index inherited own = .ok () ∧
      ∀ (i : Nat) expected found, inherited[i]? = some expected → own[i]? = some found →
        h.isSubtype found expected = true := by
  induction inherited generalizing own index with
  | nil => exact ⟨rfl, fun i expected found hi => by simp at hi⟩
  | cons a inherited ih =>
    obtain _ | ⟨b, own⟩ := own
    · exact ⟨rfl, fun i expected found _ hi => by simp at hi⟩
    rw [ClassDecl.checkFields] at hr ⊢
    split at hr
    · rename_i hsub
      obtain ⟨hok, hall⟩ := ih hr
      refine ⟨by rw [if_pos hsub]; exact hok, fun i expected found he hf => ?_⟩
      cases i with
      | zero => simp_all
      | succ i => exact hall i expected found (by simpa using he) (by simpa using hf)
    · cases hr

theorem ClassDecl.checkMethods_ok {c : ClassDecl} {index : Nat} {inherited own : List Signature}
    (hr : reported (c.checkMethods h index inherited own) = []) :
    ∀ (i : Nat) expected found, inherited[i]? = some expected → own[i]? = some found →
      h.signatureSubtype found expected = true := by
  induction inherited generalizing own index with
  | nil => exact fun i expected found hi => by simp at hi
  | cons a inherited ih =>
    obtain _ | ⟨b, own⟩ := own
    · exact fun i expected found _ hi => by simp at hi
    rw [ClassDecl.checkMethods] at hr
    split at hr
    · rename_i hsub
      intro i expected found he hf
      cases i with
      | zero => simp_all
      | succ i => exact ih hr i expected found (by simpa using he) (by simpa using hf)
    · cases hr

/-- What the check of a class against its superclass establishes, field by field and method by
method. -/
theorem ClassDecl.checkInherited_ok {c : ClassDecl} {own super : Entry} {s t : Shape}
    (hown : c.entry = some own) (hsuper : c.superEntry = some super) (hs : own.ty = .shape s)
    (ht : super.ty = .shape t) (hr : reported (c.checkInherited h) = []) :
    (∀ (i : Nat) expected found, t.fields[i]? = some expected → s.fields[i]? = some found →
      h.isSubtype found expected = true) ∧
    ∀ (i : Nat) expected found, t.methods[i]? = some expected → s.methods[i]? = some found →
      h.signatureSubtype found expected = true := by
  have hcheck : c.checkInherited h = (do
      c.checkFields h 0 t.fields s.fields
      c.checkMethods h 0 t.methods s.methods) := by
    simp only [ClassDecl.checkInherited, hsuper, hown, Option.bind_some, hs, ht, Ty.shape?, bound]
    rfl
  rw [hcheck] at hr
  have hfields : reported (c.checkFields h 0 t.fields s.fields) = [] := by
    cases hf : c.checkFields h 0 t.fields s.fields with
    | ok => rfl
    | error e =>
      rw [hf] at hr
      cases e with
      | unbound => rfl
      | wrong e => cases hr
  obtain ⟨hok, hall⟩ := ClassDecl.checkFields_ok hfields
  rw [hok] at hr
  exact ⟨hall, ClassDecl.checkMethods_ok hr⟩

/-! ### Programs -/

theorem Program.check_ok {q : Program} {ty : Option Ty} (h : q.check = .ok ty) :
    q.declErrors = [] ∧ reported (q.main.infer q.hierarchy) = [] := by
  unfold Program.check at h
  simp only at h
  split at h
  · rename_i herrors
    exact List.append_eq_nil_iff.1 herrors
  · cases h

theorem Program.infer_of_check {q : Program} {ty : Ty} (h : q.check = .ok (some ty)) :
    q.main.infer q.hierarchy = .ok ty := by
  unfold Program.check at h
  simp only at h
  split at h
  · cases houtcome : q.main.infer q.hierarchy with
    | error => simp [houtcome, Except.toOption] at h
    | ok found => simpa [houtcome, Except.toOption] using h
  · cases h

end ObjectLang
