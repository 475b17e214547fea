import ObjectLang.Proofs.Tables

/-!
# The classes of a program

What the stages of a program have in common if no names are wrong: the class table at the end has
the layout of each one (`Program.layout_stage`), its superclass comes earlier
(`Program.superclass_stage`), and the hierarchy and the lineages go from each class to its
superclass (`Program.parent_stage`, `Program.lineage_stage`).

Fields with the type of a method are the exception to what follows.  Where a class and all those it
descends from do without them, its layout is proper (`Program.proper_stage`), and its dispatch table
has for each method of the layout a label: of a method that the class declares, or else the one of
the superclass (`Program.fills_stages`).  A field with the type of a method is never lost, so that
the layout of a class shows whether there is one (`Program.noMethodFields_of_layout`).
-/

namespace ObjectLang

/-! ### Slots for methods -/

namespace Layout

/-- The slots for methods hold methods. -/
def HoldsMethods (l : Layout) : Prop :=
  ∀ slot ∈ l.methods, ∃ sig, slot.entry.ty = .method sig

theorem HoldsMethods.add {l : Layout} (h : l.HoldsMethods) (a : Addition) :
    (l.add a).HoldsMethods := by
  intro slot (hslot : slot ∈ (l.add a).slots .method)
  rcases mem_slots_add hslot with hslot | ⟨hkind, rfl⟩
  · exact h slot hslot
  · cases a with
    | field name ty level => cases hkind
    | method name signature level => exact ⟨signature, rfl⟩

theorem HoldsMethods.length_shape {l : Layout} (h : l.HoldsMethods) :
    l.shape.methods.length = l.methods.length := by
  refine List.filterMap_length_eq_length.2 fun slot hslot => ?_
  obtain ⟨sig, hsig⟩ := h slot hslot
  rw [hsig]
  rfl

end Layout

/-- The shape of a class, once its names are bound. -/
def ClassDecl.shape? (c : ClassDecl) : Option Shape := c.entry.bind (·.ty.shape?)

theorem Stage.shape?_bound (st : Stage) : st.bound.shape? = some st.layout.shape := rfl

/-! ### Stages of a program -/

/-- Before the first class. -/
def Progress.start : Progress := ⟨Env.empty.enter .empty, 0, 0, .empty, 0⟩

theorem follows_start : Follows [] .start where
  single := ⟨.empty, rfl⟩
  nextLocal := rfl
  free := rfl
  names := List.nodup_nil
  global _ := rfl
  record _ := rfl
  table _ := rfl

namespace Program

variable (p : Program)

/-- The classes of a program, stage by stage. -/
def stages : List Stage := ObjectLang.stages .start p.classes

variable {p}

@[simp] theorem classes_bind : p.bind.classes = p.stages.map Stage.bound := by
  cases p with
  | body main => rfl
  | letIn classes decls main => exact bindAll_eq_map .start classes

theorem map_name_bound (sts : List Stage) :
    (sts.map Stage.bound).map (·.name) = sts.map Stage.name := by
  rw [List.map_map]
  rfl

theorem declEnv_eq_finish : p.declEnv .empty = (Progress.start.finish p.classes).env :=
  (env_finish .start p.classes).symm

theorem mem_classes {st : Stage} (hst : st ∈ p.stages) : st.cls ∈ p.classes := by
  rw [← map_cls_stages .start p.classes]
  exact List.mem_map_of_mem hst

variable {earlier later : List Stage} {st : Stage}

theorem mem_stages (hsplit : p.stages = earlier ++ st :: later) : st ∈ p.stages := by
  rw [hsplit]
  simp

theorem mem_stages_of_mem (hsplit : p.stages = earlier ++ st :: later) {sup : Stage}
    (hsup : sup ∈ earlier) : sup ∈ p.stages := by
  rw [hsplit]
  exact List.mem_append_left _ hsup

theorem classes_split (hsplit : p.stages = earlier ++ st :: later) :
    p.classes = earlier.map Stage.cls ++ st.cls :: later.map Stage.cls := by
  rw [← map_cls_stages .start p.classes, ← Program.stages, hsplit, List.map_append, List.map_cons]

theorem classes_bind_split (hsplit : p.stages = earlier ++ st :: later) :
    p.bind.classes = earlier.map Stage.bound ++ st.bound :: later.map Stage.bound := by
  rw [classes_bind, hsplit, List.map_append, List.map_cons]

theorem map_name_methods (st : Stage) :
    st.bound.methods.map (·.name) = st.cls.methods.map (·.name) :=
  map_name_placeMethods _ _ _ _

/-! ### Classes without errors -/

section

variable (hn : p.nameErrors = [])
include hn

theorem nameErrorsAll_classes : ClassDecl.nameErrorsAll Progress.start.env p.classes = [] := by
  simp only [Program.nameErrors, Program.nameErrorsIn, List.append_eq_nil_iff] at hn
  exact hn.1.1

/-- After all classes. -/
theorem follows_stages : Follows p.stages (Progress.start.finish p.classes) :=
  follows_finish follows_start (nameErrorsAll_classes hn)

theorem follows_stage (hsplit : p.stages = earlier ++ st :: later) :
    Follows earlier st.before ∧ st.cls.nameErrors st.before.env = [] :=
  follows_of_split follows_start (nameErrorsAll_classes hn) hsplit

theorem record_stage (hst : st ∈ p.stages) :
    (p.declEnv .empty).classes.records.get? st.name = some st.record := by
  have hrec := (follows_stages hn).record st.name
  rwa [stage?_of_mem (follows_stages hn).names hst, ← declEnv_eq_finish] at hrec

theorem layout_stage (hst : st ∈ p.stages) :
    (p.declEnv .empty).classes.layout? st.name = some st.layout := by
  rw [ClassTable.layout?, record_stage hn hst]
  rfl

/-- Every class known is that of a stage. -/
theorem exists_stage {cls : String} {r : ClassRecord}
    (hr : (p.declEnv .empty).classes.records.get? cls = some r) :
    ∃ st ∈ p.stages, st.name = cls ∧ st.record = r := by
  have hrec := (follows_stages hn).record cls
  rw [← declEnv_eq_finish] at hrec
  obtain ⟨st, hst, hr'⟩ := Option.map_eq_some_iff.1 (hrec.symm.trans hr)
  obtain ⟨hmem, hname⟩ := mem_of_stage? hst
  exact ⟨st, hmem, hname, hr'⟩

/-- The superclass of a class is that of an earlier stage. -/
theorem superclass_stage (hsplit : p.stages = earlier ++ st :: later) {d : String}
    (hd : st.cls.superclass = some d) :
    ∃ sup ∈ earlier, sup.name = d ∧ st.cls.inherited st.before.env = sup.layout ∧
      st.before.env.classes.entry? d = some sup.entry ∧
      st.before.tables.get? d = some sup.table := by
  obtain ⟨hfollows, hnames⟩ := follows_stage hn hsplit
  simp only [ClassDecl.nameErrors, List.append_eq_nil_iff] at hnames
  exact hfollows.superclass hnames.1.1.1 hd

/-- What holds of the empty layout, and of the layout of a class if it does of what is inherited,
holds of all layouts. -/
theorem layout_induction {P : Layout → Prop} (hempty : P .empty)
    (hstep : ∀ {earlier later : List Stage} {st : Stage}, p.stages = earlier ++ st :: later →
      P (st.cls.inherited st.before.env) → P st.layout) : ∀ st ∈ p.stages, P st.layout := by
  refine stages_induction fun earlier st later hsplit ih => hstep hsplit ?_
  cases hd : st.cls.superclass with
  | none =>
    rw [ClassDecl.inherited, hd]
    exact hempty
  | some d =>
    obtain ⟨sup, hsup, -, hinherited, -⟩ := superclass_stage hn hsplit hd
    rw [hinherited]
    exact ih sup hsup

theorem holdsMethods_stage : ∀ st ∈ p.stages, st.layout.HoldsMethods :=
  layout_induction hn (fun slot hslot => by cases hslot) fun _ hinherited => by
    rw [Stage.layout, Layout.layout_eq_addAll]
    exact Layout.addAll_induction hinherited fun l hl a _ => hl.add a

/-- A class has the entry of its superclass. -/
theorem superEntry_stage (hsplit : p.stages = earlier ++ st :: later) {d : String}
    (hd : st.cls.superclass = some d) :
    ∃ sup ∈ earlier, sup.name = d ∧ st.cls.inherited st.before.env = sup.layout ∧
      st.bound.superEntry = some sup.entry := by
  obtain ⟨sup, hsup, hname, hinherited, hentry, -⟩ := superclass_stage hn hsplit hd
  exact ⟨sup, hsup, hname, hinherited, by simp [Stage.bound, ClassDecl.bind, hd, hentry]⟩

theorem parent_stage (hsplit : p.stages = earlier ++ st :: later) {d : String}
    (hd : st.cls.superclass = some d) : p.bind.hierarchy.parent? st.name = some d := by
  obtain ⟨sup, -, -, -, hentry⟩ := superEntry_stage hn hsplit hd
  refine parent?_foldl (c := st.bound) ?_ ?_ hd (by rw [hentry]; rfl) .empty
  · rw [classes_bind, map_name_bound]
    exact (follows_stages hn).names
  · rw [classes_bind]
    exact List.mem_map_of_mem (mem_stages hsplit)

theorem lineage_stage (hsplit : p.stages = earlier ++ st :: later) :
    lineage p.classes.reverse st.name =
        st.cls :: st.cls.superclass.elim [] (lineage p.classes.reverse) ∧
      lineage p.bind.classes.reverse st.name =
        st.bound :: st.cls.superclass.elim [] (lineage p.bind.classes.reverse) := by
  have hsuper : ∀ d, st.cls.superclass = some d → d ∈ earlier.map Stage.name := by
    intro d hd
    obtain ⟨sup, hsup, hname, -⟩ := superclass_stage hn hsplit hd
    exact hname ▸ List.mem_map_of_mem hsup
  have hnames := (follows_stages hn).names
  refine ⟨lineage_eq_cons (classes_split hsplit) ?_ fun d hd => ?_,
    lineage_eq_cons (classes_bind_split hsplit) ?_ fun d hd => ?_⟩
  · rw [← map_cls_stages .start p.classes, List.map_map]
    exact hnames
  · rw [List.map_map]
    exact hsuper d hd
  · rw [classes_bind, map_name_bound]
    exact hnames
  · rw [map_name_bound]
    exact hsuper d hd

end

theorem typeErrors_stage (ht : p.bind.declErrors = []) (hst : st ∈ p.stages) :
    st.bound.typeErrors p.bind.hierarchy = [] := by
  simp only [Program.declErrors, List.append_eq_nil_iff, classes_bind,
    List.flatMap_eq_nil_iff] at ht
  exact ht.1 st.bound (List.mem_map_of_mem hst)

/-- The hierarchy of a program goes from each class to its superclass, and nowhere else. -/
theorem exists_stage_of_parent? {cls d : String} (hp : p.bind.hierarchy.parent? cls = some d) :
    ∃ earlier st later, p.stages = earlier ++ st :: later ∧ st.name = cls ∧
      st.cls.superclass = some d := by
  rcases exists_of_parent?_foldl hp with hp | ⟨c, hc, hname, hd⟩
  · cases hp
  · rw [classes_bind] at hc
    obtain ⟨st, hst, rfl⟩ := List.mem_map.1 hc
    obtain ⟨earlier, later, hsplit⟩ := List.append_of_mem hst
    exact ⟨earlier, st, later, hsplit, hname, hd⟩

/-- Where emission succeeds, a dispatch table has as many labels as the class has methods. -/
theorem length_table_stage (hn : p.nameErrors = []) {memorySize : Nat} {code : Listing}
    (hcode : p.bind.emit memorySize = .ok code) :
    ∀ st ∈ p.stages, st.table.length = st.layout.methods.length := by
  refine stages_induction fun earlier st later hsplit ih => ?_
  have hbase : ((st.cls.superclass.bind st.before.tables.get?).getD []).length =
      (st.cls.fieldLayout st.before.env).methods.length := by
    rw [ClassDecl.fieldLayout, methods_addFields]
    cases hd : st.cls.superclass with
    | none =>
      rw [ClassDecl.inherited, hd]
      rfl
    | some d =>
      obtain ⟨sup, hsup, -, hinherited, -, htable⟩ := superclass_stage hn hsplit hd
      rw [Option.bind_some, htable, hinherited]
      exact ih sup hsup
  refine length_methodTable hbase fun m hm => ?_
  refine offset_of_mem hcode (c := st.bound) ?_ hm
  rw [classes_bind]
  exact List.mem_map_of_mem (mem_stages hsplit)

/-! ### Fields with the type of a method -/

variable (p) in
/-- Neither the class nor any class that it descends from has a field with the type of a method. -/
def NoMethodFields (cls : String) : Prop :=
  ∀ c ∈ lineage p.classes.reverse cls, ∀ f ∈ c.fields, f.ty.isMethod = false

theorem noMethodFields_of_forall
    (hfields : ∀ c ∈ p.classes, ∀ f ∈ c.fields, f.ty.isMethod = false) (cls : String) :
    p.NoMethodFields cls := fun c hc => hfields c (List.mem_reverse.1 (mem_of_mem_lineage hc))

section

variable (hn : p.nameErrors = [])
include hn

theorem noMethodFields_iff (hsplit : p.stages = earlier ++ st :: later) :
    p.NoMethodFields st.name ↔ (∀ f ∈ st.cls.fields, f.ty.isMethod = false) ∧
      ∀ d, st.cls.superclass = some d → p.NoMethodFields d := by
  rw [NoMethodFields, (lineage_stage hn hsplit).1, List.forall_mem_cons]
  cases st.cls.superclass <;> simp [NoMethodFields]

/-- The members of a class have different names and fit in with what is inherited. -/
theorem members_stage (hsplit : p.stages = earlier ++ st :: later) :
    (st.cls.fields.map (·.name) ++ st.cls.methods.map (·.name)).Nodup ∧
      (st.cls.inherited st.before.env).Fits
        (st.cls.additions (ClassDecl.innerLevel st.before.env)) := by
  have hnames := (follows_stage hn hsplit).2
  simp only [ClassDecl.nameErrors, List.append_eq_nil_iff] at hnames
  exact (ClassDecl.memberErrors_eq_nil_iff.1 hnames.1.1.2).2.2

theorem anchored_stage : ∀ st ∈ p.stages, st.layout.Anchored :=
  layout_induction hn Layout.anchored_empty fun hsplit hinherited => by
    rw [Stage.layout, Layout.layout_eq_addAll]
    exact (hinherited.addAll (members_stage hn hsplit).2).1

/-- A field with the type of a method is still there in the layouts of all subclasses. -/
theorem noMethodFields_of_layout :
    ∀ st ∈ p.stages, ¬ st.layout.HasMethodField → p.NoMethodFields st.name := by
  refine stages_induction fun earlier st later hsplit ih hlayout => ?_
  rw [Stage.layout, Layout.layout_eq_addAll] at hlayout
  -- the fields of the class itself and those inherited are both kept
  have hkept : (st.cls.inherited st.before.env).Anchored →
      ¬ (st.cls.inherited st.before.env).HasMethodField ∧
        ∀ f ∈ st.cls.fields, f.ty.isMethod = false := by
    intro hanchored
    have hadd := (hanchored.addAll (members_stage hn hsplit).2).2
    obtain ⟨hinherited, hown⟩ := not_or.1 (mt hadd hlayout)
    refine ⟨hinherited, fun f hf => ?_⟩
    by_contra hmethod
    exact hown ⟨_, List.mem_append_left _ (List.mem_map_of_mem hf), hmethod⟩
  rw [noMethodFields_iff hn hsplit]
  cases hd : st.cls.superclass with
  | none =>
    rw [ClassDecl.inherited, hd] at hkept
    exact ⟨(hkept Layout.anchored_empty).2, by simp⟩
  | some d =>
    obtain ⟨sup, hsup, rfl, hinherited, -⟩ := superclass_stage hn hsplit hd
    rw [hinherited] at hkept
    obtain ⟨hinherits, hown⟩ := hkept (anchored_stage hn sup (mem_stages_of_mem hsplit hsup))
    refine ⟨hown, fun d hd => ?_⟩
    cases hd
    exact ih sup hsup hinherits

/-- The layout of a class is proper and keeps what is inherited, if what is inherited is proper. -/
theorem layout_step (hsplit : p.stages = earlier ++ st :: later)
    (hfields : ∀ f ∈ st.cls.fields, f.ty.isMethod = false)
    (hin : (st.cls.inherited st.before.env).Proper 1) :
    (st.cls.fieldLayout st.before.env).Proper 1 ∧ st.layout.Proper 1 ∧
      Layout.Keeps (st.cls.inherited st.before.env) st.layout := by
  have hlevel : ClassDecl.innerLevel st.before.env = 1 := by
    rw [ClassDecl.innerLevel, (follows_stage hn hsplit).1.level]
  have hfits := (members_stage hn hsplit).2
  have hregular : ∀ a ∈ st.cls.additions 1, a.Regular ∧ a.level = 1 := fun a ha =>
    ⟨ClassDecl.regular_additions hfields ha, ClassDecl.level_additions ha⟩
  rw [ClassDecl.fieldLayout_eq_addAll, Stage.layout, Layout.layout_eq_addAll]
  rw [hlevel] at hfits ⊢
  refine ⟨?_, hin.addAll hregular hfits⟩
  exact (hin.addAll (fun a ha => hregular a (List.mem_append_left _ ha))
    (Layout.fits_append.1 hfits).1).1

theorem proper_stage : ∀ st ∈ p.stages, p.NoMethodFields st.name → st.layout.Proper 1 := by
  refine stages_induction fun earlier st later hsplit ih hfields => ?_
  obtain ⟨hown, hsuper⟩ := (noMethodFields_iff hn hsplit).1 hfields
  refine (layout_step hn hsplit hown ?_).2.1
  cases hd : st.cls.superclass with
  | none =>
    rw [ClassDecl.inherited, hd]
    exact Layout.proper_empty 1
  | some d =>
    obtain ⟨sup, hsup, rfl, hinherited, -⟩ := superclass_stage hn hsplit hd
    rw [hinherited]
    exact ih sup hsup (hsuper _ hd)

/-- **What holds of the methods that a class declares, and is inherited, holds of all labels in its
dispatch table.**  The methods of a class are numbered one after the other, from the blocks before
the class on. -/
theorem fills_stages {P : String → Slot → Label → Prop}
    (hinherited : ∀ {earlier later : List Stage} {st : Stage} {d : String} {slot : Slot}
      {label : Label}, p.stages = earlier ++ st :: later → st.cls.superclass = some d →
      slot.name ∉ st.bound.methods.map (·.name) → P d slot label → P st.name slot label)
    (hown : ∀ {earlier later : List Stage} {st : Stage} {ms ms' : List Routine} {m : Routine}
      {slot : Slot}, p.stages = earlier ++ st :: later → st.bound.methods = ms ++ m :: ms' →
      m.name = slot.name → slot.entry.ty = .method m.signature →
      P st.name slot (blockLabel (st.before.blocks + Routine.blockCountAll ms))) :
    ∀ st ∈ p.stages, p.NoMethodFields st.name → Fills (P st.name) st.layout st.table := by
  refine stages_induction fun earlier st later hsplit ih hfields => ?_
  obtain ⟨hfields, hsuper⟩ := (noMethodFields_iff hn hsplit).1 hfields
  have hlevel : ClassDecl.innerLevel st.before.env = 1 := by
    rw [ClassDecl.innerLevel, (follows_stage hn hsplit).1.level]
  -- the table starts from that of the superclass
  have hbase : (st.cls.inherited st.before.env).Proper 1 ∧
      Fills (MethodSlot st.before.blocks
        (fun slot label => ∃ d, st.cls.superclass = some d ∧ P d slot label) [])
        (st.cls.inherited st.before.env)
        ((st.cls.superclass.bind st.before.tables.get?).getD []) := by
    cases hd : st.cls.superclass with
    | none =>
      rw [ClassDecl.inherited, hd]
      exact ⟨Layout.proper_empty 1, fills_empty _⟩
    | some d =>
      obtain ⟨sup, hsup, rfl, hinherited, -, htable⟩ := superclass_stage hn hsplit hd
      rw [hinherited, Option.bind_some, htable]
      refine ⟨proper_stage hn sup (mem_stages_of_mem hsplit hsup) (hsuper _ hd), ?_⟩
      exact (ih sup hsup (hsuper _ hd)).mono fun slot label hr => .inl ⟨by simp, sup.name, rfl, hr⟩
  have hproper := (layout_step hn hsplit hfields hbase.1).1
  have hfits := (Layout.fits_append.1 (members_stage hn hsplit).2).2
  rw [← ClassDecl.fieldLayout_eq_addAll] at hfits
  simp only [ClassDecl.fieldLayout, hlevel] at hproper hfits
  have hmethods : Fills (MethodSlot st.before.blocks
      (fun slot label => ∃ d, st.cls.superclass = some d ∧ P d slot label) st.bound.methods)
      st.layout st.table := by
    rw [Stage.layout, ClassDecl.layout, ClassDecl.fieldLayout, Stage.table, ClassDecl.table]
    simp only [Stage.bound, ClassDecl.bind, ClassDecl.fieldLayout, hlevel]
    exact fills_addMethods (hbase.2.addFields st.cls.fields) hproper hfits
  refine hmethods.mono fun slot label hslot => ?_
  rcases hslot with ⟨hmem, d, hd, hr⟩ | ⟨ms, m, ms', hms, hname, hsig, rfl⟩
  · exact hinherited hsplit hd hmem hr
  · exact hown hsplit hms hname hsig

end

end Program

end ObjectLang
