import ObjectLang.Proofs.Members

/-!
# Layouts are consistent

In the layout of a class without errors every member is where its entry says: field `i` at offset
`-(i + 1)`, method `i` at offset `i`, and nothing else under its name (`Layout.Proper`).  Adding
members keeps this, and keeps the place and the kind of every member there was (`Layout.Keeps`), as
long as the members fit in with those before them (`Layout.Fits`).  That they do is what is checked
of a class (`ClassDecl.memberErrors_eq_nil_iff`).
-/

namespace ObjectLang

/-! ### New names -/

/-- The names are different from each other and from those in use. -/
def Fresh (names used : List String) : Prop := names.Nodup ∧ ∀ name ∈ names, name ∉ used

theorem fresh_nil_left (used : List String) : Fresh [] used := by simp [Fresh]

theorem fresh_nil_right {names : List String} : Fresh names [] ↔ names.Nodup := by simp [Fresh]

theorem fresh_cons {name : String} {names used : List String} :
    Fresh (name :: names) used ↔ name ∉ used ∧ Fresh names (name :: used) := by
  simp only [Fresh, List.nodup_cons, List.mem_cons, not_or]
  grind

/-- Names after others, which are then in use. -/
theorem fresh_append {names names' used used' : List String}
    (hused : ∀ name, name ∈ used' ↔ name ∈ names ∨ name ∈ used) :
    Fresh (names ++ names') used ↔ Fresh names used ∧ Fresh names' used' := by
  simp only [Fresh, List.nodup_append, List.forall_mem_append, hused]
  grind

namespace Layout

/-- Every member of the layout is where its entry says. -/
structure Proper (level : Nat) (l : Layout) : Prop where
  field : ∀ {i : Nat} {slot : Slot}, l.fields[i]? = some slot →
    l.member? slot.name = some slot.entry ∧ slot.entry.offset = -(i : Int) - 1 ∧
      slot.entry.isMethod = false ∧ slot.entry.level = level
  method : ∀ {i : Nat} {slot : Slot}, l.methods[i]? = some slot →
    l.member? slot.name = some slot.entry ∧ slot.entry.offset = i ∧
      slot.entry.isMethod = true ∧ slot.entry.level = level
  member : ∀ {name : String} {e : Entry}, l.member? name = some e →
    (∃ i : Nat, l.fields[i]? = some ⟨name, e⟩) ∨ ∃ i : Nat, l.methods[i]? = some ⟨name, e⟩

/-- The members of the first layout have the same places and kinds in the second. -/
def Keeps (l l' : Layout) : Prop :=
  ∀ name e, l.member? name = some e →
    ∃ e', l'.member? name = some e' ∧ e'.offset = e.offset ∧ e'.isMethod = e.isMethod

theorem Keeps.refl (l : Layout) : Keeps l l := fun _ e h => ⟨e, h, rfl, rfl⟩

theorem Keeps.trans {l l' l'' : Layout} (h₁ : Keeps l l') (h₂ : Keeps l' l'') : Keeps l l'' := by
  intro name e h
  obtain ⟨e', h', ho, hm⟩ := h₁ name e h
  obtain ⟨e'', h'', ho', hm'⟩ := h₂ name e' h'
  exact ⟨e'', h'', ho'.trans ho, hm'.trans hm⟩

theorem proper_empty (level : Nat) : Proper level empty where
  field h := by simp [empty] at h
  method h := by simp [empty] at h
  member h := by simp [empty, member?] at h

variable {level : Nat} {l : Layout} {a : Addition}

/-- A layout is proper if it is coherent and each slot holds the latest member of its name. -/
theorem Coherent.proper (h : l.Coherent) (hslots : ∀ kind, ∀ slot ∈ l.slots kind,
    l.member? slot.name = some slot.entry ∧ slot.entry.level = level) : Proper level l := by
  have hslot : ∀ kind (i : Nat) slot, (l.slots kind)[i]? = some slot →
      l.member? slot.name = some slot.entry ∧ slot.entry.offset = kind.offset i ∧
        slot.entry.isMethod = decide (kind = .method) ∧ slot.entry.level = level := by
    intro kind i slot hi
    obtain ⟨hmember, hlevel⟩ := hslots kind slot (List.mem_of_getElem? hi)
    exact ⟨hmember, (h.slot hi).2, memberKind_eq_iff.1 (h.slot hi).1, hlevel⟩
  refine ⟨hslot .field _ _, hslot .method _ _, fun {name e} he => ?_⟩
  obtain ⟨i, -, hi⟩ := h.member he
  cases hk : e.ty.memberKind with
  | field => exact .inl ⟨i, by rwa [hk] at hi⟩
  | method => exact .inr ⟨i, by rwa [hk] at hi⟩

namespace Proper

variable (h : Proper level l)
include h

/-- Slots of both kinds hold the latest member of their name, in its place. -/
theorem slot {kind : MemberKind} {i : Nat} {slot : Slot} (hi : (l.slots kind)[i]? = some slot) :
    l.member? slot.name = some slot.entry ∧ slot.entry.offset = kind.offset i ∧
      slot.entry.ty.memberKind = kind ∧ slot.entry.level = level := by
  rw [memberKind_eq_iff]
  cases kind with
  | field => exact h.field hi
  | method => exact h.method hi

theorem coherent : l.Coherent where
  slot hi := ⟨(h.slot hi).2.2.1, (h.slot hi).2.1⟩
  member {name e} he := by
    obtain ⟨kind, i, hi⟩ : ∃ kind, ∃ i : Nat, (l.slots kind)[i]? = some ⟨name, e⟩ := by
      rcases h.member he with hfield | hmethod
      · exact ⟨.field, hfield⟩
      · exact ⟨.method, hmethod⟩
    obtain ⟨-, hoffset, rfl, -⟩ := h.slot hi
    exact ⟨i, hoffset, hi⟩
  named {kind slot} hslot := by
    obtain ⟨i, hi⟩ := List.mem_iff_getElem?.1 hslot
    rw [(h.slot hi).1]
    rfl

theorem field_of_member {name : String} {e : Entry} (hm : l.member? name = some e)
    (hk : e.isMethod = false) : ∃ i : Nat, l.fields[i]? = some ⟨name, e⟩ := by
  obtain ⟨i, -, hi⟩ := h.coherent.member hm
  have hkind : e.ty.memberKind = .field := memberKind_eq_iff.2 hk
  exact ⟨i, by rwa [hkind] at hi⟩

theorem method_of_member {name : String} {e : Entry} (hm : l.member? name = some e)
    (hk : e.isMethod = true) : ∃ i : Nat, l.methods[i]? = some ⟨name, e⟩ := by
  obtain ⟨i, -, hi⟩ := h.coherent.member hm
  have hkind : e.ty.memberKind = .method := memberKind_eq_iff.2 hk
  exact ⟨i, by rwa [hkind] at hi⟩

theorem level_of_member {name : String} {e : Entry} (hm : l.member? name = some e) :
    e.level = level := by
  obtain ⟨i, -, hi⟩ := h.coherent.member hm
  exact (h.slot hi).2.2.2

theorem nodup_fields : (l.fields.map (·.name)).Nodup := by
  rw [List.nodup_iff_pairwise_ne, List.pairwise_iff_getElem]
  intro i j hi hj hlt heq
  simp only [List.length_map] at hi hj
  simp only [List.getElem_map] at heq
  obtain ⟨hmi, hoi, -⟩ := h.field (List.getElem?_eq_getElem hi)
  obtain ⟨hmj, hoj, -⟩ := h.field (List.getElem?_eq_getElem hj)
  rw [heq, hmj, Option.some.injEq] at hmi
  rw [hmi] at hoj
  omega

/-- The slot that a member gets: the one of the member it overrides, or the next free one.  No
other slot has its name. -/
theorem exists_index (hp : l.placement a ≠ .clash) :
    ∃ i ≤ (l.slots a.kind).length, l.offsetOf a = a.kind.offset i ∧
      ∀ (kind : MemberKind) (j : Nat) slot, (l.slots kind)[j]? = some slot →
        (slot.name = a.name ↔ kind = a.kind ∧ j = i) := by
  obtain ⟨i, hi, hoffset, hname⟩ := h.coherent.exists_index a
  refine ⟨i, hi, hoffset, fun kind j slot hj => ⟨fun hn => ?_, ?_⟩⟩
  · obtain ⟨hmember, hslot, hkind, -⟩ := h.slot hj
    rw [hn] at hmember
    have hsame := placement_ne_clash_iff.1 hp _ hmember
    obtain rfl : kind = a.kind := hkind.symm.trans hsame
    have hold := offsetOf_eq_of_member hmember hsame
    exact ⟨rfl, MemberKind.offset_inj (hslot.symm.trans (hold.symm.trans hoffset))⟩
  · rintro ⟨rfl, rfl⟩
    exact hname slot hj

theorem add (ha : a.Regular) (hlevel : a.level = level) (hp : l.placement a ≠ .clash) :
    Proper level (l.add a) := by
  obtain ⟨i, hi, hoffset, hname⟩ := h.exists_index hp
  refine (h.coherent.add ha).proper fun kind slot hslot => ?_
  obtain ⟨j, hj⟩ := List.mem_iff_getElem?.1 hslot
  rw [getElem?_slots_add hi hoffset] at hj
  rw [member?_add]
  split at hj
  · obtain rfl := Option.some.inj hj
    exact ⟨if_pos rfl, hlevel⟩
  · rename_i hold
    rw [if_neg fun hn => hold ((hname kind j slot hj).1 hn)]
    exact ⟨(h.slot hj).1, (h.slot hj).2.2.2⟩

end Proper

theorem keeps_add (ha : a.Regular) (hp : l.placement a ≠ .clash) : Keeps l (l.add a) := by
  intro name e he
  rw [member?_add]
  split
  · rename_i hname
    rw [hname] at he
    have hk := placement_ne_clash_iff.1 hp e he
    refine ⟨(l.slotOf a).entry, rfl, offsetOf_eq_of_member he hk, ?_⟩
    rw [memberKind_eq_iff.1 hk]
    exact memberKind_eq_iff.1 ha.memberKind
  · exact ⟨e, he, rfl, rfl⟩

/-! ### Shapes -/

/-- The shape of a class has the types of its fields, slot by slot. -/
theorem getElem?_shape_fields {i : Nat} {slot : Slot} (hi : l.fields[i]? = some slot) :
    l.shape.fields[i]? = some slot.entry.ty := by
  simp [shape, hi]

/-- The shape of a class has the signatures of its methods, slot by slot. -/
theorem Proper.getElem?_shape_methods (h : Proper level l) {i : Nat} {slot : Slot}
    {sig : Signature} (hi : l.methods[i]? = some slot) (hs : slot.entry.ty = .method sig) :
    l.shape.methods[i]? = some sig := by
  have htypes : (l.shape.methods.map Ty.method)[i]? = some (.method sig) := by
    rw [h.coherent.shape_methods, List.getElem?_map, hi, Option.map_some, hs]
  rw [List.getElem?_map] at htypes
  obtain ⟨sig', hsig', heq⟩ := Option.map_eq_some_iff.1 htypes
  cases heq
  exact hsig'

/-! ### Several members -/

/-- The members fit in with those before them, one after the other. -/
def Fits (l : Layout) : List Addition → Prop
  | [] => True
  | a :: as => l.placement a ≠ .clash ∧ (l.add a).Fits as

variable {as bs : List Addition}

theorem fits_append : l.Fits (as ++ bs) ↔ l.Fits as ∧ (l.addAll as).Fits bs := by
  induction as generalizing l with
  | nil => simp [Fits, addAll]
  | cons a as ih =>
    rw [List.cons_append, Fits, ih, Fits, and_assoc]
    rfl

/-- Members with new names have to fit in with those of the layout that was started from. -/
theorem fits_iff_of_fresh {base : Layout} {declared : List String}
    (hfresh : Fresh (as.map Addition.name) declared)
    (hbase : ∀ name ∉ declared, l.member? name = base.member? name) :
    l.Fits as ↔ ∀ a ∈ as, ∀ e, base.member? a.name = some e → e.ty.memberKind = a.kind := by
  induction as generalizing l declared with
  | nil => simp [Fits]
  | cons a as ih =>
    rw [List.map_cons, fresh_cons] at hfresh
    have hadded : ∀ name ∉ a.name :: declared, (l.add a).member? name = base.member? name := by
      intro name hname
      rw [List.mem_cons, not_or] at hname
      rw [member?_add, if_neg hname.1, hbase name hname.2]
    rw [Fits, placement_ne_clash_iff, hbase a.name hfresh.1, ih hfresh.2 hadded,
      List.forall_mem_cons]

theorem Proper.addAll (h : Proper level l) (has : ∀ a ∈ as, a.Regular ∧ a.level = level)
    (hfits : l.Fits as) : Proper level (l.addAll as) ∧ Keeps l (l.addAll as) := by
  induction as generalizing l with
  | nil => exact ⟨h, Keeps.refl l⟩
  | cons a as ih =>
    rw [List.forall_mem_cons] at has
    obtain ⟨⟨hregular, hlevel⟩, has⟩ := has
    obtain ⟨hproper, hkeeps⟩ := ih (h.add hregular hlevel hfits.1) has hfits.2
    exact ⟨hproper, (keeps_add hregular hfits.1).trans hkeeps⟩

/-! ### Fields with the type of a method -/

/-- The members that do not have the type of a method are fields, in their places.  This is less
than `Proper` and holds even if fields have the type of a method. -/
def Anchored (l : Layout) : Prop :=
  ∀ name e, l.member? name = some e → e.isMethod = false →
    ∃ i : Nat, e.offset = -(i : Int) - 1 ∧ l.fields[i]? = some ⟨name, e⟩

/-- There is a field with the type of a method. -/
def HasMethodField (l : Layout) : Prop := ∃ slot ∈ l.fields, slot.entry.isMethod = true

theorem anchored_empty : Anchored empty := by
  intro name e h
  simp [empty, member?] at h

namespace Anchored

/-- A field gets the next free slot, or that of a field without the type of a method. -/
theorem exists_index (h : l.Anchored) {name : String} {ty : Ty}
    (hp : l.placement (.field name ty level) ≠ .clash) :
    ∃ i ≤ l.fields.length, l.offsetOf (.field name ty level) = -(i : Int) - 1 ∧
      ∀ slot, l.fields[i]? = some slot → slot.name = name ∧ slot.entry.isMethod = false := by
  cases hm : l.member? name with
  | none =>
    refine ⟨l.fields.length, Nat.le_refl _, by simp [offsetOf, fieldOffset, hm], ?_⟩
    intro slot hslot
    simp at hslot
  | some e =>
    have hkind := placement_ne_clash_iff.1 hp e hm
    have hk : e.isMethod = false := memberKind_eq_iff.1 hkind
    obtain ⟨i, hoff, hi⟩ := h name e hm hk
    refine ⟨i, Nat.le_of_lt (List.getElem?_eq_some_iff.1 hi).1,
      (offsetOf_eq_of_member hm hkind).trans hoff, fun slot hslot => ?_⟩
    cases hi.symm.trans hslot
    exact ⟨rfl, hk⟩

/-- A member that fits in moves no field, and one with the type of a method is not overridden. -/
theorem add (h : l.Anchored) (hp : l.placement a ≠ .clash) :
    (l.add a).Anchored ∧ (l.HasMethodField ∨ ¬ a.Regular → (l.add a).HasMethodField) := by
  cases a with
  | field name ty level =>
    obtain ⟨i, hi, hoff, hslot⟩ := h.exists_index hp
    have hfields : ∀ j : Nat, (l.add (.field name ty level)).fields[j]? = _ :=
      getElem?_slots_add hi hoff .field
    have hnew := (hfields i).trans (if_pos ⟨rfl, rfl⟩)
    -- any other slot stays as it is
    have hold : ∀ (j : Nat) slot, l.fields[j]? = some slot →
        slot.name ≠ name ∨ slot.entry.isMethod = true →
          (l.add (.field name ty level)).fields[j]? = some slot := by
      intro j slot hj hne
      refine (hfields j).trans ((if_neg ?_).trans hj)
      rintro ⟨-, rfl⟩
      obtain ⟨hname, hk⟩ := hslot slot hj
      simp [hname, hk] at hne
    refine ⟨fun x e hx hk => ?_, ?_⟩
    · rw [member?_add] at hx
      split at hx
      · rename_i hxn
        cases hx
        exact ⟨i, hoff, by rw [hnew, hxn]; rfl⟩
      · rename_i hxn
        obtain ⟨j, hoff', hj⟩ := h x e hx hk
        exact ⟨j, hoff', hold j _ hj (.inl hxn)⟩
    · rintro (⟨slot, hmem, hk⟩ | hty)
      · obtain ⟨j, hj⟩ := List.mem_iff_getElem?.1 hmem
        exact ⟨slot, List.mem_of_getElem? (hold j slot hj (.inr hk)), hk⟩
      · exact ⟨_, List.mem_of_getElem? hnew, Bool.of_not_eq_false hty⟩
  | method name signature level =>
    refine ⟨fun x e hx hk => ?_, ?_⟩
    · rw [member?_add] at hx
      split at hx
      · cases hx
        cases hk
      · exact h x e hx hk
    · rintro (hl | hregular)
      · exact hl
      · exact absurd trivial hregular

theorem addAll (h : l.Anchored) (hfits : l.Fits as) : (l.addAll as).Anchored ∧
    (l.HasMethodField ∨ (∃ a ∈ as, ¬ a.Regular) → (l.addAll as).HasMethodField) := by
  induction as generalizing l with
  | nil => exact ⟨h, by simp [Layout.addAll]⟩
  | cons a as ih =>
    obtain ⟨hadd, hfirst⟩ := h.add hfits.1
    obtain ⟨hall, hrest⟩ := ih hadd hfits.2
    refine ⟨hall, fun hmethod => hrest ?_⟩
    rcases hmethod with hl | ⟨b, hb, hregular⟩
    · exact .inl (hfirst (.inl hl))
    · rcases List.mem_cons.1 hb with rfl | hb
      · exact .inl (hfirst (.inr hregular))
      · exact .inr ⟨b, hb, hregular⟩

end Anchored

end Layout

/-! ### The members of a class -/

theorem memberDeclaredTwice_eq_nil_iff {declared : List String} {kind : NameKind} {name : String}
    {line : SourceLine} : memberDeclaredTwice declared kind name line = [] ↔ name ∉ declared := by
  simp [memberDeclaredTwice]

theorem placementErrors_eq_nil_iff {placement : Placement} {kind : NameKind} {name cls : String}
    {line : SourceLine} :
    placementErrors placement kind name cls line = [] ↔ placement ≠ .clash := by
  simp [placementErrors]

section Members

variable {env : Env} {cls : String} {level : Nat} {declared : List String} {l : Layout}

theorem Env.fieldErrors_eq_nil_iff {fs : List TypedName} :
    env.fieldErrors cls level declared l fs = [] ↔
      (∀ f ∈ fs, env.typeErrors f.ty f.line = []) ∧ Fresh (fs.map (·.name)) declared ∧
        l.Fits (fs.map fun f => .field f.name f.ty level) := by
  induction fs generalizing l declared with
  | nil => simp [fieldErrors, fresh_nil_left, Layout.Fits]
  | cons f fs ih =>
    simp only [fieldErrors, List.append_eq_nil_iff, memberDeclaredTwice_eq_nil_iff,
      placementErrors_eq_nil_iff, ih, List.forall_mem_cons, List.map_cons, fresh_cons,
      Layout.Fits, Layout.placement, Layout.add]
    tauto

theorem Env.methodErrors_eq_nil_iff {ms : List Routine} :
    env.methodErrors cls level declared l ms = [] ↔
      (∀ m ∈ ms, env.signatureErrors m.params m.ret m.line = []) ∧
        Fresh (ms.map (·.name)) declared ∧
        l.Fits (ms.map fun m => .method m.name m.signature level) := by
  induction ms generalizing l declared with
  | nil => simp [methodErrors, fresh_nil_left, Layout.Fits]
  | cons m ms ih =>
    simp only [methodErrors, List.append_eq_nil_iff, memberDeclaredTwice_eq_nil_iff,
      placementErrors_eq_nil_iff, ih, List.forall_mem_cons, List.map_cons, fresh_cons,
      Layout.Fits, Layout.placement, Layout.add]
    tauto

end Members

namespace ClassDecl

variable {c : ClassDecl} {env : Env}

theorem fieldLayout_eq_addAll (c : ClassDecl) (env : Env) : c.fieldLayout env =
    (c.inherited env).addAll (c.fields.map fun f => .field f.name f.ty (innerLevel env)) := by
  rw [fieldLayout, Layout.addAll, List.foldl_map]
  rfl

theorem map_name_additions (c : ClassDecl) (level : Nat) : (c.additions level).map Addition.name =
    c.fields.map (·.name) ++ c.methods.map (·.name) := by
  rw [additions, List.map_append, List.map_map, List.map_map]
  rfl

theorem level_additions {level : Nat} {a : Addition} (ha : a ∈ c.additions level) :
    a.level = level := by
  simp only [additions, List.mem_append, List.mem_map] at ha
  rcases ha with ⟨f, -, rfl⟩ | ⟨m, -, rfl⟩ <;> rfl

theorem regular_additions (hfields : ∀ f ∈ c.fields, f.ty.isMethod = false) {level : Nat}
    {a : Addition} (ha : a ∈ c.additions level) : a.Regular := by
  simp only [additions, List.mem_append, List.mem_map] at ha
  rcases ha with ⟨f, hf, rfl⟩ | ⟨m, -, rfl⟩
  · exact hfields f hf
  · trivial

/-- **Nothing is wrong with the members of a class** if their types are known, they have different
names, and they fit in with what is inherited. -/
theorem memberErrors_eq_nil_iff : c.memberErrors env = [] ↔
    (∀ f ∈ c.fields, { env with current := some c.name }.typeErrors f.ty f.line = []) ∧
      (∀ m ∈ c.methods,
        { env with current := some c.name }.signatureErrors m.params m.ret m.line = []) ∧
      (c.fields.map (·.name) ++ c.methods.map (·.name)).Nodup ∧
      (c.inherited env).Fits (c.additions (innerLevel env)) := by
  -- the methods are declared after the fields
  have hnames : Fresh (c.fields.map (·.name) ++ c.methods.map (·.name)) [] ↔
      Fresh (c.fields.map (·.name)) [] ∧
        Fresh (c.methods.map (·.name)) (c.fields.map (·.name)) := fresh_append (by simp)
  rw [← fresh_nil_right, hnames, additions, Layout.fits_append, ← fieldLayout_eq_addAll]
  simp only [memberErrors, List.append_eq_nil_iff, Env.fieldErrors_eq_nil_iff,
    Env.methodErrors_eq_nil_iff]
  tauto

end ClassDecl

end ObjectLang
