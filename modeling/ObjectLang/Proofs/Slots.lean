import ObjectLang.Proofs.Classes
import ObjectLang.Proofs.Code.Blocks
import ObjectLang.Proofs.Emittable
import Mathlib.Data.List.Forall2

/-!
# Slots of dispatch tables

The layout of a class and its dispatch table are made apart from each other: the layout by name
resolution, from names, and the table by emission, from the offsets that have been written at the
methods.  They agree.  The code that writes the table to the heap pushes one label for each method
of the layout, in the same order, and the label is that of the block of the nearest declaration of
the method, counted from the class upward (`Program.tables_of_nameErrors`).

A block is identified by where its method is declared (`Program.Declares`): blocks are numbered in
the order of the declarations they belong to, and no two of them have the same number.
-/

namespace ObjectLang

open Piece (plain)

/-- The labels whose addresses the code pushes, in order. -/
def Listing.pushedLabels (code : Listing) : List Label :=
  code.filterMap fun
    | .op (.pushTarget label) => some label
    | _ => none

/-- The code leaves the address of the next free word of the heap on the stack, and moves the labels
of the table to the heap, one after the other. -/
def DispatchTable.IsFill (table : DispatchTable) (fill : Listing) : Prop :=
  fill = .op .lhp :: table.flatMap fun label =>
    [.op (.pushTarget label), .op .lhp, .op .sw, .op .lhp, .op (.push 1), .op .add, .op .shp]

/-- The class declares a method of that name, and none of those below it in the lineage does. -/
def NearestDeclaring (classes : List ClassDecl) (cls name : String) (d : ClassDecl) : Prop :=
  name ∈ d.methods.map (·.name) ∧ ∃ nearer further, lineage classes cls = nearer ++ d :: further ∧
    ∀ c ∈ nearer, name ∉ c.methods.map (·.name)

namespace Program

/-- The class is part of the program and declares the method; before it there are declarations with
`n` labels and `k` blocks. -/
def Declares (q : Program) (d : ClassDecl) (m : Routine) (n k : Nat) : Prop :=
  ∃ before after earlier later, q.classes = before ++ d :: after ∧
    d.methods = earlier ++ m :: later ∧
    n = ClassDecl.labelCountAll before + Routine.labelCountAll earlier ∧
    k = ClassDecl.blockCountAll before + Routine.blockCountAll earlier

/-- Objects of the class `cls` have the method `m` by the given name: of the classes that declare
one, `d` is the nearest.  Before it there are declarations with `n` labels and `k` blocks. -/
structure Provides (q : Program) (cls name : String) (d : ClassDecl) (m : Routine) (n k : Nat) :
    Prop where
  nearest : NearestDeclaring q.classes.reverse cls name d
  declared : q.Declares d m n k
  name : m.name = name

/-- The code that fills the dispatch table of a class agrees with the class's layout and shape.  The
labels that it pushes are as many as the methods of the shape, and each of them is that of a block
in the code: the block of the nearest declaration of the method that the layout has in the slot. -/
def TableAgrees (p : Program) (memorySize : Nat) (code : Listing) (c : ClassDecl)
    (fill : Listing) : Prop :=
  DispatchTable.IsFill fill.pushedLabels fill ∧
  ∃ l, (p.declEnv .empty).classes.layout? c.name = some l ∧ c.shape? = some l.shape ∧
    fill.pushedLabels.length = l.shape.methods.length ∧
    fill.pushedLabels.length = l.methods.length ∧
    ∀ (i : Nat) slot, l.methods[i]? = some slot → ∃ d m n k block,
      p.bind.Provides c.name slot.name d m n k ∧ l.shape.methods[i]? = some m.signature ∧
        fill.pushedLabels[i]? = some (blockLabel k) ∧ m.IsBlock memorySize n k block ∧
        block <:+: code

end Program

theorem DispatchTable.isFill_emit (table : DispatchTable) : table.IsFill table.emit := rfl

theorem Listing.pushedLabels_tableEmit (table : DispatchTable) :
    Listing.pushedLabels table.emit = table := by
  induction table with
  | nil => rfl
  | cons label table ih => exact congrArg (label :: ·) ih

/-! ### Where labels come from -/

theorem Routine.isSuffix_block (f : Routine) (n k : Nat) :
    (Block.mk f n k).outline <:+ f.outline n k := by
  obtain ⟨name, params, ret, decls, body, line, offset⟩ := f
  rw [Routine.outline]
  exact List.suffix_append _ _

namespace Program

namespace Declares

variable {q : Program} {d : ClassDecl} {m : Routine} {n k : Nat} (h : q.Declares d m n k)
include h

theorem mem_classes : d ∈ q.classes := by
  obtain ⟨before, after, -, -, hclasses, -⟩ := h
  rw [hclasses]
  simp

theorem mem_methods : m ∈ d.methods := by
  obtain ⟨-, -, earlier, later, -, hmethods, -⟩ := h
  rw [hmethods]
  simp

/-- The blocks of a method stand where its declaration says. -/
theorem isInfix_outline : m.outline n k <:+: q.outline := by
  obtain ⟨before, after, earlier, later, hclasses, hmethods, rfl, rfl⟩ := h
  exact Program.isInfix_outline hclasses hmethods

end Declares

/-- The label is that of the nearest declaration of the method in a slot. -/
def Supplies (q : Program) (cls : String) (slot : Slot) (label : Label) : Prop :=
  ∃ d m n k, q.Provides cls slot.name d m n k ∧ slot.entry.ty = .method m.signature ∧
    label = blockLabel k

variable {p : Program} {earlier later : List Stage} {st : Stage} {slot : Slot}

theorem declares_stage {ms ms' : List Routine} {m : Routine}
    (hsplit : p.stages = earlier ++ st :: later) (hms : st.bound.methods = ms ++ m :: ms') :
    p.bind.Declares st.bound m (st.before.labels + Routine.labelCountAll ms)
      (st.before.blocks + Routine.blockCountAll ms) := by
  obtain ⟨hlabels, hblocks⟩ := numbers_of_split hsplit
  refine ⟨_, _, ms, ms', classes_bind_split hsplit, hms, ?_, ?_⟩
  · rw [hlabels, Progress.start, Nat.zero_add]
  · rw [hblocks, Progress.start, Nat.zero_add]

section

variable (hn : p.nameErrors = [])
include hn

/-- What the class does not declare is declared nearest by what is nearest to its superclass. -/
theorem supplies_inherited {d : String} {label : Label}
    (hsplit : p.stages = earlier ++ st :: later) (hd : st.cls.superclass = some d)
    (hown : slot.name ∉ st.bound.methods.map (·.name)) (h : p.bind.Supplies d slot label) :
    p.bind.Supplies st.name slot label := by
  obtain ⟨c, m, n, k, ⟨⟨hmem, nearer, further, hlineage, hnearer⟩, hdeclared, hname⟩, hrest⟩ := h
  refine ⟨c, m, n, k, ⟨⟨hmem, st.bound :: nearer, further, ?_, ?_⟩, hdeclared, hname⟩, hrest⟩
  · -- the lineage of a class is the class itself and the lineage of its superclass
    rw [(lineage_stage hn hsplit).2, hd, Option.elim_some, hlineage]
    rfl
  · rw [List.forall_mem_cons]
    exact ⟨hown, hnearer⟩

/-- What the class declares is nearest. -/
theorem supplies_own {ms ms' : List Routine} {m : Routine}
    (hsplit : p.stages = earlier ++ st :: later) (hms : st.bound.methods = ms ++ m :: ms')
    (hname : m.name = slot.name) (hsig : slot.entry.ty = .method m.signature) :
    p.bind.Supplies st.name slot
      (blockLabel (st.before.blocks + Routine.blockCountAll ms)) := by
  have hdeclared := declares_stage hsplit hms
  refine ⟨st.bound, m, _, _, ⟨⟨?_, [], _, (lineage_stage hn hsplit).2, by simp⟩, hdeclared, hname⟩,
    hsig, rfl⟩
  rw [← hname]
  exact List.mem_map_of_mem hdeclared.mem_methods

/-- The method that a class provides is the first one by its name in the lineage. -/
theorem nearestMethod?_of_provides {cls name : String} {d : ClassDecl} {m : Routine} {n k : Nat}
    (h : p.bind.Provides cls name d m n k) :
    nearestMethod? (lineage p.bind.classes.reverse cls) name = some m := by
  obtain ⟨⟨-, nearer, further, hlineage, hnearer⟩, hdeclared, rfl⟩ := h
  obtain ⟨st, hst, rfl⟩ : ∃ st ∈ p.stages, st.bound = d :=
    List.mem_map.1 (classes_bind (p := p) ▸ hdeclared.mem_classes)
  obtain ⟨earlier, later, hsplit⟩ := List.append_of_mem hst
  obtain ⟨-, hnodup, -⟩ := List.nodup_append.1 (members_stage hn hsplit).1
  rw [← map_name_methods] at hnodup
  have hown : st.bound.ownMethod? m.name = some m :=
    find?_name_of_mem hnodup hdeclared.mem_methods
  have hnone : nearestMethod? nearer m.name = none :=
    List.findSome?_eq_none_iff.2 fun c hc => ClassDecl.ownMethod?_eq_none.2 (hnearer c hc)
  rw [hlineage, nearestMethod?_append, hnone, Option.none_or, nearestMethod?_cons, hown,
    Option.some_or]

end

/-! ### Tables in the code -/

theorem not_overridesMethodField
    (hfields : ∀ c ∈ p.classes, ∀ f ∈ c.fields, f.ty.isMethod = false) :
    ¬ p.OverridesMethodField := by
  rintro ⟨before, c, after, hclasses, m, hm, a, ha, f, hf, hname, hmethod⟩
  have hmem : a ∈ p.classes := by
    cases hs : c.superclass with
    | none => simp [hs] at ha
    | some d =>
      rw [hs] at ha
      have hbefore := List.mem_reverse.1 (mem_of_mem_lineage ha)
      rw [hclasses]
      exact List.mem_append_left _ hbefore
  rw [hfields a hmem f hf] at hmethod
  cases hmethod

/-- The code of a program with classes starts with the code that fills their tables. -/
theorem isPrefix_fills (hclasses : p.classes ≠ []) (memorySize : Nat) :
    .op (.push 0) :: (p.stages.map fun st => st.table.emit).flatten <+:
      p.bind.outline.map (Piece.erase memorySize) := by
  cases p with
  | body main => exact absurd rfl hclasses
  | letIn classes decls main =>
    -- classes are bound and emitted in the same order, stage by stage
    have htables : ClassDecl.inlineAll 0 .empty (ClassDecl.bindAll (.enter .empty .empty) classes) =
        (letIn classes decls main).stages.flatMap fun st => plain st.table.emit :=
      inlineAll_eq_flatMap .start classes
    have houtline : plain (straight [.push 0]) ++
        ((letIn classes decls main).stages.flatMap fun st => plain st.table.emit) <+:
          (letIn classes decls main).bind.outline := by
      rw [← htables]
      simp only [Program.bind, bindIn, Program.outline, List.append_assoc]
      exact (List.prefix_append_right_inj _).2 (List.prefix_append _ _)
    have hcode := houtline.map (Piece.erase memorySize)
    simp only [List.map_append, Piece.map_erase_plain, List.map_flatMap] at hcode
    exact hcode

/-- The code for the table of one class agrees with its layout. -/
theorem tableAgrees_stage (hn : p.nameErrors = [])
    (hfields : ∀ c ∈ p.classes, ∀ f ∈ c.fields, f.ty.isMethod = false) {memorySize : Nat}
    {code : Listing} (hcode : p.bind.emit memorySize = .ok code) (hst : st ∈ p.stages) :
    p.TableAgrees memorySize code st.bound st.table.emit := by
  have hfills : Fills (p.bind.Supplies st.name) st.layout st.table :=
    fills_stages hn (P := p.bind.Supplies) (supplies_inherited hn) (supplies_own hn) st hst
      (noMethodFields_of_forall hfields _)
  have hshape := (holdsMethods_stage hn st hst).length_shape
  rw [TableAgrees, Listing.pushedLabels_tableEmit]
  refine ⟨st.table.isFill_emit, st.layout, layout_stage hn hst, st.shape?_bound, ?_, hfills.length,
    ?_⟩
  · rw [hshape, hfills.length]
  · intro i slot hi
    obtain ⟨label, hlabel, d, m, n, k, hprovides, hsig, rfl⟩ := hfills.slot hi
    have hproper := proper_stage hn st hst (noMethodFields_of_forall hfields _)
    -- there is code for the whole program, and so for this method
    have hemitted : m.Emitted := ⟨_, _, _, _, emitBlock_of_mem hcode
      hprovides.declared.mem_classes hprovides.declared.mem_methods memorySize n k⟩
    refine ⟨d, m, n, k, _, hprovides, hproper.getElem?_shape_methods hi hsig, hlabel,
      hemitted.isBlock memorySize n k, ?_⟩
    rw [eq_outline hcode]
    exact ((m.isSuffix_block n k).isInfix.trans hprovides.declared.isInfix_outline).map _

/-- **Dispatch tables agree with layouts.**  Let the names of a program be in order, and let no
field have the type of a method.  Then there is code for it.  If there are classes, the code starts
by filling the dispatch tables of all of them, in their order; and each fill pushes one label for
each method of the class, which is that of the block of the nearest declaration of this method. -/
theorem tables_of_nameErrors (hn : p.nameErrors = [])
    (hfields : ∀ c ∈ p.classes, ∀ f ∈ c.fields, f.ty.isMethod = false) (memorySize : Nat) :
    ∃ code fills, p.bind.emit memorySize = .ok code ∧
      (p.classes ≠ [] → .op (.push 0) :: fills.flatten <+: code) ∧
      List.Forall₂ (p.TableAgrees memorySize code) p.bind.classes fills := by
  obtain ⟨code, hcode⟩ := (emits hn memorySize).ok (not_overridesMethodField hfields)
  refine ⟨code, p.stages.map fun st => st.table.emit, hcode, fun hclasses => ?_, ?_⟩
  · rw [eq_outline hcode]
    exact isPrefix_fills hclasses memorySize
  · rw [classes_bind, List.forall₂_map_left_iff, List.forall₂_map_right_iff, List.forall₂_same]
    exact fun st hst => tableAgrees_stage hn hfields hcode hst

/-- Three classes in a row.  The last one overrides a method of the first, which the second leaves
alone, and has a new one before it. -/
def shapes : Program :=
  .letIn
    [{ name := "Shape"
       fields := []
       methods := [{ name := "area", params := [], ret := .int, decls := [], body := .int 0 0 },
                   { name := "sides", params := [], ret := .int, decls := [], body := .int 0 0 }] },
     { name := "Square"
       superclass := some "Shape"
       fields := [{ name := "width", ty := .int }]
       methods := [{ name := "sides", params := [], ret := .int, decls := [], body := .int 0 4 }] },
     { name := "Tile"
       superclass := some "Square"
       fields := []
       methods := [{ name := "colour", params := [], ret := .int, decls := [], body := .int 0 7 },
                   { name := "area", params := [], ret := .int, decls := []
                     body := .ident 0 "width" none }] }]
    [] (.int 0 0)

theorem tables_of_nameErrors_shapes :
    shapes.nameErrors = [] ∧ (∀ c ∈ shapes.classes, ∀ f ∈ c.fields, f.ty.isMethod = false) ∧
      ∃ code fills, shapes.bind.emit 100 = .ok code ∧ .op (.push 0) :: fills.flatten <+: code ∧
        List.Forall₂ (shapes.TableAgrees 100 code) shapes.bind.classes fills ∧
        Listing.pushedLabels (code.takeWhile (· ≠ .op .halt)) =
          [0, 1, 0, 2, 4, 2, 3].map blockLabel := by
  have hfields : ∀ c ∈ shapes.classes, ∀ f ∈ c.fields, f.ty.isMethod = false := by decide
  obtain ⟨code, fills, hcode, hfills, hagree⟩ :=
    tables_of_nameErrors (p := shapes) rfl hfields 100
  refine ⟨rfl, hfields, code, fills, hcode, hfills (List.cons_ne_nil _ _), hagree, ?_⟩
  cases hcode
  rfl

end Program

end ObjectLang
