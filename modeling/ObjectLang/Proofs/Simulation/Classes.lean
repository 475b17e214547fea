import ObjectLang.Proofs.Simulation.World
import ObjectLang.Proofs.Slots
import ObjectLang.Proofs.Substitution

/-!
# The world of a program

`Program.world` is the world in which a program runs.  The classes of an accepted program make it a
lawful one (`Program.Accepted.lawful`): this is shown stage by stage, from the first class to the
last, since a class relies on its superclass, which comes before it.
-/

namespace ObjectLang

namespace Program

variable (p : Program)

/-- What stays the same throughout the runs of a program. -/
def world (nulls plainTypes : Prop) (limit : Nat) : World where
  hierarchy := p.bind.hierarchy
  classes := (p.declEnv .empty).classes
  references := p.references
  provides cls method k := ∃ d r n, p.bind.Provides cls method d r n k
  outline := p.bind.outline
  home cls := (stage? p.stages cls).elim 0 (·.before.free)
  table cls := (stage? p.stages cls).elim [] fun st =>
    st.table.map (Image.ofPieces p.bind.outline).address
  inhabited := p.NoMethodFields
  nulls := nulls
  plainTypes := plainTypes
  limit := limit

/-- Nothing is wrong with a program, and where `null` may occur no field has the type of a
method. -/
structure Accepted (nulls plainTypes : Prop) : Prop where
  names : p.nameErrors = []
  types : p.bind.declErrors = []
  main : ∃ ty, p.bind.main.infer p.bind.hierarchy = .ok ty
  emitted : ∃ memorySize code, p.bind.emit memorySize = .ok code
  size : (Image.ofPieces p.bind.outline).size < 2 ^ 63
  annotations : plainTypes → ∀ ty ∈ p.annotations, ty.isPlain = true
  fields : nulls → ∀ c ∈ p.classes, ∀ f ∈ c.fields, f.ty.isMethod = false
  nulls : p.mentionsNull = true → nulls

variable {p}

namespace Accepted

variable {nulls plainTypes : Prop} {limit : Nat} (h : p.Accepted nulls plainTypes)
include h

theorem record {st : Stage} (hst : st ∈ p.stages) :
    (p.world nulls plainTypes limit).classes.records.get? st.name = some st.record :=
  record_stage h.names hst

theorem layout {st : Stage} (hst : st ∈ p.stages) :
    (p.world nulls plainTypes limit).classes.layout? st.name = some st.layout :=
  layout_stage h.names hst

theorem exists_stage_of_layout {cls : String} {l : Layout}
    (hl : (p.world nulls plainTypes limit).classes.layout? cls = some l) :
    ∃ st ∈ p.stages, st.name = cls ∧ st.layout = l := by
  obtain ⟨r, hr, rfl⟩ := Option.map_eq_some_iff.1 hl
  obtain ⟨st, hst, hname, rfl⟩ := exists_stage h.names hr
  exact ⟨st, hst, hname, rfl⟩

/-- What is known at a stage stays known. -/
theorem knows {earlier later : List Stage} {st : Stage}
    (hsplit : p.stages = earlier ++ st :: later) :
    (p.world nulls plainTypes limit).Knows (st.cls.extend st.before.env) := by
  obtain ⟨hfollows, hn⟩ := follows_stage h.names hsplit
  have hafter := hfollows.snoc hn
  intro name r hr
  obtain ⟨st', hst', rfl⟩ := Option.map_eq_some_iff.1 ((hafter.record name).symm.trans hr)
  obtain ⟨hmem, rfl⟩ := mem_of_stage? hst'
  refine h.record ?_
  rw [hsplit]
  simp only [List.mem_append, List.mem_cons, List.not_mem_nil, or_false] at hmem ⊢
  rcases hmem with hmem | rfl
  · exact .inl hmem
  · exact .inr (.inl rfl)

/-- A class can be used in the place of its superclass. -/
theorem overrides {earlier later : List Stage} {st : Stage}
    (hsplit : p.stages = earlier ++ st :: later) (hfields : p.NoMethodFields st.name) {d : String}
    (hd : st.cls.superclass = some d) :
    ∃ sup ∈ earlier, sup.name = d ∧ ∀ name e, sup.layout.member? name = some e →
      ∃ e', st.layout.member? name = some e' ∧ (p.world nulls plainTypes limit).Overrides e' e := by
  obtain ⟨sup, hsup, hname, hinherited, hrefines⟩ :=
    refines_superclass h.names h.types hsplit hd
  have hst := mem_stages hsplit
  have hsup' := mem_stages_of_mem hsplit hsup
  obtain ⟨hown, hsuper⟩ := (noMethodFields_iff h.names hsplit).1 hfields
  have hproper := proper_stage h.names st hst hfields
  have hproper' := proper_stage h.names sup hsup' (hname ▸ hsuper d hd)
  obtain ⟨-, -, hkeeps⟩ := layout_step h.names hsplit hown (by rw [hinherited]; exact hproper')
  rw [hinherited] at hkeeps
  refine ⟨sup, hsup, hname, fun name e he => ?_⟩
  obtain ⟨e', he', hoff, hkind⟩ := hkeeps name e he
  refine ⟨e', he', hoff, hkind, fun hk => ?_, fun {sig} hsig => ?_⟩
  · obtain ⟨i, hi⟩ := hproper'.field_of_member he hk
    obtain ⟨j, hj⟩ := hproper.field_of_member he' (hkind.trans hk)
    have hi' := (hproper'.field hi).2.1
    have hj' := (hproper.field hj).2.1
    obtain rfl : i = j := by simp only at hi' hj'; omega
    exact World.sub_of_isSubtype (hrefines.field (Layout.getElem?_shape_fields hj)
      (Layout.getElem?_shape_fields hi))
  · have hk : e.isMethod = true := by rw [Entry.isMethod, hsig]; rfl
    have hk' : e'.ty.isMethod = true := hkind.trans hk
    obtain ⟨sig', hsig'⟩ : ∃ sig', e'.ty = .method sig' := by
      cases hty : e'.ty <;> simp_all [Ty.isMethod]
    obtain ⟨i, hi⟩ := hproper'.method_of_member he hk
    obtain ⟨j, hj⟩ := hproper.method_of_member he' hk'
    have hi' := (hproper'.method hi).2.1
    have hj' := (hproper.method hj).2.1
    obtain rfl : i = j := by simp only at hi' hj'; omega
    have hfound := hproper.getElem?_shape_methods hj hsig'
    have hexpected := hproper'.getElem?_shape_methods hi hsig
    exact ⟨sig', hsig', World.subSignature_of_signatureSubtype (hrefines.method hfound hexpected)⟩

/-! ### Finding methods -/

/-- A method is that of the class, or else that of its superclass. -/
theorem method?_stage {earlier later : List Stage} {st : Stage}
    (hsplit : p.stages = earlier ++ st :: later) (name : String) :
    p.references.method? st.name name = (st.cls.ownMethod? name).or
      (st.cls.superclass.bind fun d => p.references.method? d name) := by
  simp only [Program.references, (lineage_stage h.names hsplit).1, nearestMethod?_cons]
  cases st.cls.superclass <;> rfl

/-- The names of the methods of a class. -/
theorem inClass {earlier later : List Stage} {st : Stage}
    (hsplit : p.stages = earlier ++ st :: later) :
    (p.world nulls plainTypes limit).InClass (st.cls.methodEnv st.before.env) st.name := by
  obtain ⟨hfollows, hn⟩ := follows_stage h.names hsplit
  have hafter := hfollows.snoc hn
  refine ⟨Env.opened_enter _, ?_, fun {name e} hx hsh => ?_⟩
  · exact (Env.level_enter hafter.opened _).trans (congrArg (· + 1) hafter.level)
  · rw [ClassDecl.methodEnv, Env.lookup_enter] at hx
    refine ⟨st.layout, h.layout (mem_stages hsplit), ?_⟩
    rcases Option.or_eq_some_iff.1 hx with hx | ⟨-, hx⟩
    · exact hx
    · -- outside the class there are only classes
      obtain ⟨st', -, rfl⟩ := Option.map_eq_some_iff.1 ((hafter.global name).symm.trans hx)
      cases hsh

/-! ### Methods and their blocks -/

/-- Nothing is wrong with a method whose block is part of the program. -/
theorem ready {earlier later : List Stage} {st : Stage}
    (hsplit : p.stages = earlier ++ st :: later) {m : Routine} (hm : m ∈ st.cls.methods) {n k : Nat}
    (hcode : (m.bindInner (st.cls.methodEnv st.before.env)).outline n k <:+: p.bind.outline) :
    (p.world nulls plainTypes limit).Ready (st.cls.methodEnv st.before.env) m
      ((p.world nulls plainTypes limit).img.address (blockLabel k)) := by
  have hst := mem_stages hsplit
  have hn := (follows_stage h.names hsplit).2
  simp only [ClassDecl.nameErrors, ClassDecl.memberErrors, List.append_eq_nil_iff,
    List.flatMap_eq_nil_iff] at hn
  have ht := typeErrors_stage h.types hst
  simp only [ClassDecl.typeErrors, List.append_eq_nil_iff, List.flatMap_eq_nil_iff] at ht
  refine ⟨⟨n, k, hcode, rfl⟩, hn.2 m hm, ?_, ?_, fun hplain ty hty => ?_, fun hm' => ?_⟩
  · obtain ⟨offset, hmem⟩ := mem_bound (st.cls.methodEnv st.before.env)
      (st.cls.fieldLayout st.before.env) (ClassDecl.innerLevel st.before.env) hm
    have hm' := ht.2 _ hmem
    rwa [Routine.typeErrors_offset] at hm'
  · exact h.knows hsplit
  · have hcls : ty ∈ st.cls.annotations :=
      List.mem_append_right _ (List.mem_flatMap.2 ⟨m, hm, hty⟩)
    exact h.annotations hplain ty
      (List.mem_append_left _ (List.mem_flatMap.2 ⟨_, mem_classes hst, hcls⟩))
  · refine h.nulls ?_
    simp only [Program.mentionsNull, Bool.or_eq_true, List.any_eq_true]
    exact .inl (.inl ⟨st.cls, mem_classes hst, m, hm, hm'⟩)

end Accepted

variable (p) in
/-- The block that a label stands for is that of the method in a slot, for objects of a class. -/
def Realizes (nulls plainTypes : Prop) (limit : Nat) (cls : String) (slot : Slot)
    (label : Label) : Prop :=
  p.bind.Supplies cls slot label ∧
    ∃ f, p.references.method? cls slot.name = some f ∧ slot.entry.ty = .method f.signature ∧
    ∃ env owner, (p.world nulls plainTypes limit).InClass env owner ∧
      (p.world nulls plainTypes limit).Descends cls owner ∧
      (p.world nulls plainTypes limit).Ready env f
        ((p.world nulls plainTypes limit).img.address label)

namespace Accepted

variable {nulls plainTypes : Prop} {limit : Nat} (h : p.Accepted nulls plainTypes)
include h

/-- A method that the class does not declare is that of the superclass. -/
theorem realizes_inherited {earlier later : List Stage} {st : Stage} {d : String} {slot : Slot}
    {label : Label} (hsplit : p.stages = earlier ++ st :: later) (hd : st.cls.superclass = some d)
    (hown : slot.name ∉ st.bound.methods.map (·.name))
    (hr : p.Realizes nulls plainTypes limit d slot label) :
    p.Realizes nulls plainTypes limit st.name slot label := by
  obtain ⟨hsupplies, f, hf, hsig, env, owner, hin, hdesc, hready⟩ := hr
  have hnone : st.cls.ownMethod? slot.name = none := by
    rwa [ClassDecl.ownMethod?_eq_none, ← map_name_methods]
  have hmethod := h.method?_stage hsplit slot.name
  rw [hnone, hd, Option.none_or, Option.bind_some] at hmethod
  exact ⟨supplies_inherited h.names hsplit hd hown hsupplies, f, hmethod.trans hf, hsig, env,
    owner, hin, .head (parent_stage h.names hsplit hd) hdesc, hready⟩

/-- A method that the class declares is its own. -/
theorem realizes_own {earlier later : List Stage} {st : Stage} {ms ms' : List Routine} {r : Routine}
    {slot : Slot} (hsplit : p.stages = earlier ++ st :: later)
    (hms : st.bound.methods = ms ++ r :: ms') (hname : r.name = slot.name)
    (hsig : slot.entry.ty = .method r.signature) :
    p.Realizes nulls plainTypes limit st.name slot
      (blockLabel (st.before.blocks + Routine.blockCountAll ms)) := by
  have hnodup := (members_stage h.names hsplit).1.of_append_right
  have hr : r ∈ st.bound.methods := by rw [hms]; simp
  obtain ⟨m, hm, offset, hbound⟩ : ∃ m ∈ st.cls.methods, ∃ offset,
      r = { m.bindInner (st.cls.methodEnv st.before.env) with offset := offset } :=
    exists_of_mem_bound hr
  have hm' : m.name = slot.name := by
    rw [← hname, hbound]
    exact (Routine.name_bindInner _ m).symm
  have hsig' : slot.entry.ty = .method m.signature := by
    rw [hsig, hbound]
    exact congrArg Ty.method (Routine.signature_bindInner _ m)
  have hfind : st.cls.ownMethod? slot.name = some m := by
    rw [← hm']
    exact find?_name_of_mem hnodup hm
  have hmethod := h.method?_stage hsplit slot.name
  rw [hfind, Option.some_or] at hmethod
  have hcode := (declares_stage hsplit hms).isInfix_outline
  rw [hbound, Routine.outline_offset] at hcode
  exact ⟨supplies_own h.names hsplit hms hname hsig, m, hmethod, hsig', _, st.name,
    h.inClass hsplit, .refl, h.ready hsplit hm hcode⟩

/-- The dispatch table of a class realizes its layout. -/
theorem fills : ∀ st ∈ p.stages, p.NoMethodFields st.name →
    Fills (p.Realizes nulls plainTypes limit st.name) st.layout st.table :=
  fills_stages h.names h.realizes_inherited h.realizes_own

/-- The dispatch table of a class, as the world has it. -/
theorem table {st : Stage} (hst : st ∈ p.stages) : (p.world nulls plainTypes limit).table st.name =
    st.table.map (p.world nulls plainTypes limit).img.address := by
  simp only [Program.world, stage?_of_mem (follows_stages h.names).names hst, Option.elim_some]
  rfl

/-- **The world of an accepted program is lawful.** -/
theorem lawful : (p.world nulls plainTypes limit).Lawful where
  size := h.size
  placed := by
    obtain ⟨_, -, hplaced, -⟩ := p.bind.assemble_outline 0
    exact hplaced
  inhabited hl hnulls := by
    obtain ⟨st, hst, rfl, rfl⟩ := h.exists_stage_of_layout hl
    by_cases hmethod : st.layout.HasMethodField
    · exact noMethodFields_of_forall (h.fields (hnulls hmethod)) st.name
    · exact noMethodFields_of_layout h.names st hst hmethod
  proper hl hfields := by
    obtain ⟨st, hst, rfl, rfl⟩ := h.exists_stage_of_layout hl
    exact proper_stage h.names st hst hfields
  shape he := by
    obtain ⟨r, hr, rfl⟩ := Option.map_eq_some_iff.1 he
    obtain ⟨st, hst, rfl, rfl⟩ := exists_stage h.names hr
    exact ⟨st.layout, h.layout hst, rfl⟩
  fields hl := Option.map_eq_some_iff.2 ⟨_, hl, rfl⟩
  parent hp hfields := by
    obtain ⟨earlier, st, later, hsplit, rfl, hd⟩ := exists_stage_of_parent? hp
    obtain ⟨sup, hsup, rfl, hover⟩ := h.overrides hsplit hfields hd
    refine ⟨((noMethodFields_iff h.names hsplit).1 hfields).2 _ hd, st.layout, sup.layout,
      h.layout (mem_stages hsplit), h.layout ?_, hover⟩
    rw [hsplit]
    exact List.mem_append_left _ hsup
  methods {cls l} hl hfields {i slot} hi := by
    obtain ⟨st, hst, rfl, rfl⟩ := h.exists_stage_of_layout hl
    obtain ⟨label, hlabel, ⟨d, r, n, k, hprovides, -, rfl⟩, f, hf, hsig, hready⟩ :=
      (h.fills st hst hfields).slot hi
    refine ⟨f, (p.world nulls plainTypes limit).img.address (blockLabel k), hf, hsig, ?_,
      ⟨k, ⟨d, r, n, hprovides⟩, rfl⟩, hready⟩
    rw [h.table hst, List.getElem?_map, hlabel]
    rfl

end Accepted

end Program

end ObjectLang
