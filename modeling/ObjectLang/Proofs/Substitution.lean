import ObjectLang.Proofs.Checked
import ObjectLang.Proofs.Classes
import ObjectLang.Proofs.Subtyping

/-!
# Classes stand for their superclasses

A class is compared with its direct superclass only, index by index, and the comparison ends where
one of the two shapes ends.  It still reaches every member of the superclass, since a class starts
from the layout of its superclass and members are only added or replaced (`Layout.Grows`).  So the
shape of a class refines that of its superclass (`Shape.Refines`), and as subtyping is a preorder,
that of every superclass at any distance: `Program.refines_of_inherits`.

Fields with the type of a method are no exception here.  What a field of such a type does to the
offsets of methods does not matter, as there is no way for a slot to get lost.
-/

namespace ObjectLang

/-! ### Layouts only grow -/

namespace Layout

/-- There are at least as many slots in the second layout. -/
structure Grows (l l' : Layout) : Prop where
  fields : l.fields.length ≤ l'.fields.length
  methods : l.methods.length ≤ l'.methods.length

theorem Grows.refl (l : Layout) : Grows l l := ⟨Nat.le_refl _, Nat.le_refl _⟩

theorem Grows.trans {l l' l'' : Layout} (h₁ : Grows l l') (h₂ : Grows l' l'') : Grows l l'' :=
  ⟨Nat.le_trans h₁.fields h₂.fields, Nat.le_trans h₁.methods h₂.methods⟩

theorem grows_add (l : Layout) (a : Addition) : Grows l (l.add a) :=
  ⟨length_slots_le_add l a .field, length_slots_le_add l a .method⟩

end Layout

/-! ### Refinement of shapes -/

/-- Objects of the first shape can be used as objects of the second: there are all of its members,
and each of them is of a subtype. -/
structure Shape.Refines (h : Hierarchy) (s t : Shape) : Prop where
  fields_le : t.fields.length ≤ s.fields.length
  methods_le : t.methods.length ≤ s.methods.length
  field : ∀ {i : Nat} {found expected : Ty}, s.fields[i]? = some found →
    t.fields[i]? = some expected → h.isSubtype found expected = true
  method : ∀ {i : Nat} {found expected : Signature}, s.methods[i]? = some found →
    t.methods[i]? = some expected → h.signatureSubtype found expected = true

theorem Shape.Refines.refl (h : Hierarchy) (s : Shape) : s.Refines h s where
  fields_le := Nat.le_refl _
  methods_le := Nat.le_refl _
  field hf he := Option.some.inj (hf.symm.trans he) ▸ h.isSubtype_refl _
  method hf he := Option.some.inj (hf.symm.trans he) ▸ h.signatureSubtype_refl _

theorem Shape.Refines.trans {h : Hierarchy} {s t u : Shape} (hst : s.Refines h t)
    (htu : t.Refines h u) : s.Refines h u where
  fields_le := Nat.le_trans htu.fields_le hst.fields_le
  methods_le := Nat.le_trans htu.methods_le hst.methods_le
  field {i found expected} hf he := by
    -- the shape in between has a field at this index, as it is no shorter
    have hlt := Nat.lt_of_lt_of_le (List.getElem?_eq_some_iff.1 he).1 htu.fields_le
    exact Hierarchy.isSubtype_trans (hst.field hf (List.getElem?_eq_getElem hlt))
      (htu.field (List.getElem?_eq_getElem hlt) he)
  method {i found expected} hf he := by
    have hlt := Nat.lt_of_lt_of_le (List.getElem?_eq_some_iff.1 he).1 htu.methods_le
    exact Hierarchy.signatureSubtype_trans (hst.method hf (List.getElem?_eq_getElem hlt))
      (htu.method (List.getElem?_eq_getElem hlt) he)

/-! ### The classes of a program -/

theorem Stage.grows_layout (st : Stage) :
    (st.cls.inherited st.before.env).Grows st.layout := by
  rw [Stage.layout, Layout.layout_eq_addAll]
  exact Layout.addAll_induction (.refl _) fun l hl a _ => hl.trans (l.grows_add a)

namespace Program

variable {p : Program}

section

variable (hn : p.nameErrors = [])
include hn

variable (ht : p.bind.declErrors = [])
include ht

/-- The shape of a class refines that of its superclass. -/
theorem refines_superclass {earlier later : List Stage} {st : Stage}
    (hsplit : p.stages = earlier ++ st :: later) {d : String} (hd : st.cls.superclass = some d) :
    ∃ sup ∈ earlier, sup.name = d ∧ st.cls.inherited st.before.env = sup.layout ∧
      st.layout.shape.Refines p.bind.hierarchy sup.layout.shape := by
  obtain ⟨sup, hsup, hname, hinherited, hsuper⟩ := superEntry_stage hn hsplit hd
  have hst := mem_stages hsplit
  have hsup' := mem_stages_of_mem hsplit hsup
  have herrors := typeErrors_stage ht hst
  simp only [ClassDecl.typeErrors, List.append_eq_nil_iff] at herrors
  have hown : st.bound.entry = some st.entry := rfl
  obtain ⟨hfield, hmethod⟩ := ClassDecl.checkInherited_ok hown hsuper rfl rfl herrors.1
  have hgrows := st.grows_layout
  rw [hinherited] at hgrows
  refine ⟨sup, hsup, hname, hinherited, ?_, ?_, fun hf he => hfield _ _ _ he hf,
    fun hf he => hmethod _ _ _ he hf⟩
  · simpa [Layout.shape] using hgrows.fields
  · rw [(holdsMethods_stage hn st hst).length_shape, (holdsMethods_stage hn sup hsup').length_shape]
    exact hgrows.methods

/-- The shape of a class refines that of every class it reaches. -/
theorem refines_of_reaches {c d : String} (hr : p.bind.hierarchy.Reaches c d) {st sup : Stage}
    (hst : st ∈ p.stages) (hsup : sup ∈ p.stages) (hc : st.name = c) (hd : sup.name = d) :
    st.layout.shape.Refines p.bind.hierarchy sup.layout.shape := by
  have hnames := (follows_stages hn).names
  induction hr using Relation.ReflTransGen.head_induction_on generalizing st with
  | refl =>
    obtain rfl : st = sup := List.inj_on_of_nodup_map hnames hst hsup (hc.trans hd.symm)
    exact .refl _ _
  | head hp _ ih =>
    obtain ⟨earlier, st', later, hsplit, hname, hsuper⟩ := exists_stage_of_parent? hp
    obtain rfl : st = st' :=
      List.inj_on_of_nodup_map hnames hst (mem_stages hsplit) (hc.trans hname.symm)
    obtain ⟨next, hnext, hname, -, hrefines⟩ := refines_superclass hn ht hsplit hsuper
    exact hrefines.trans (ih (mem_stages_of_mem hsplit hnext) hname)

end

/-- **A class can be used in the place of each of its superclasses, at any distance.**  It has at
least as many fields and methods, each field has a subtype of the type it has in the superclass, and
the signature of each method is below the one it has there, with as many parameters. -/
theorem refines_of_inherits {p : Program} {ty : Option Ty} (hn : p.nameErrors = [])
    (hty : p.bind.check = .ok ty) {a b : ClassDecl} (ha : a ∈ p.bind.classes)
    (hb : b ∈ p.bind.classes) (hinherits : p.bind.hierarchy.inherits b.name a.name = true) :
    ∃ s t : Shape, b.shape? = some s ∧ a.shape? = some t ∧ s.Refines p.bind.hierarchy t ∧
      ∀ (i : Nat) found expected, s.methods[i]? = some found → t.methods[i]? = some expected →
        found.arity = expected.arity := by
  have hdecls := (check_ok hty).1
  rw [classes_bind] at ha hb
  obtain ⟨sup, hsup, rfl⟩ := List.mem_map.1 ha
  obtain ⟨st, hst, rfl⟩ := List.mem_map.1 hb
  have hreaches := Hierarchy.inherits_iff.1 hinherits
  have hrefines := refines_of_reaches hn hdecls hreaches hst hsup rfl rfl
  refine ⟨st.layout.shape, sup.layout.shape, st.shape?_bound, sup.shape?_bound, hrefines, ?_⟩
  intro i found expected hfound hexpected
  exact Hierarchy.arity_eq_of_signatureSubtype (hrefines.method hfound hexpected)

/-- A method that is overridden twice: first by one with a smaller result, then by one that also
takes more. -/
def boxes : Program :=
  .letIn
    [{ name := "Thing", fields := [], methods := [] },
     { name := "Coin", superclass := some "Thing", fields := [], methods := [] },
     { name := "Box"
       fields := [{ name := "content", ty := .ref "Thing" }]
       methods := [{ name := "swap", params := [{ name := "coin", ty := .ref "Coin" }]
                     ret := .ref "Thing", decls := [], body := .ident 0 "content" none }] },
     { name := "Purse"
       superclass := some "Box"
       fields := [{ name := "content", ty := .ref "Coin" }, { name := "size", ty := .int }]
       methods := [{ name := "swap", params := [{ name := "coin", ty := .ref "Coin" }]
                     ret := .ref "Coin", decls := [], body := .ident 0 "content" none }] },
     { name := "Bag"
       superclass := some "Purse"
       fields := []
       methods := [{ name := "weigh", params := [], ret := .int, decls := []
                     body := .ident 0 "size" none },
                   { name := "swap", params := [{ name := "thing", ty := .ref "Thing" }]
                     ret := .ref "Coin", decls := [], body := .ident 0 "content" none }] }]
    [] (.int 0 0)

theorem refines_of_inherits_boxes :
    boxes.nameErrors = [] ∧ boxes.bind.check = .ok (some .int) ∧
      boxes.bind.hierarchy.inherits "Bag" "Box" = true ∧
      ∃ box bag s t, boxes.bind.classes[2]? = some box ∧ boxes.bind.classes[4]? = some bag ∧
        bag.shape? = some s ∧ box.shape? = some t ∧ s.Refines boxes.bind.hierarchy t := by
  obtain ⟨s, t, hs, ht, hrefines, -⟩ := refines_of_inherits (p := boxes) rfl rfl
    (List.mem_of_getElem? (i := 2) rfl) (List.mem_of_getElem? (i := 4) rfl) rfl
  exact ⟨rfl, rfl, rfl, _, _, s, t, rfl, rfl, hs, ht, hrefines⟩

end Program

end ObjectLang
