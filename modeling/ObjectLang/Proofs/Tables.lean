import ObjectLang.Proofs.Stages

/-!
# Dispatch tables

The dispatch table of a class has one label for each method of its layout.  A method that the class
declares has the label of its own block; any other slot has the label that it has in the table of
the superclass (`fills_addMethods`).  Blocks are numbered in the order of the declarations they
belong to, so where a method is declared says where its block is (`Program.isInfix_outline`).
-/

namespace ObjectLang

/-- A table has one label for each method of a layout, related to the method's slot. -/
structure Fills (P : Slot → Label → Prop) (l : Layout) (table : DispatchTable) : Prop where
  length : table.length = l.methods.length
  slot : ∀ {i : Nat} {slot : Slot}, l.methods[i]? = some slot →
    ∃ label, table[i]? = some label ∧ P slot label

theorem fills_empty (P : Slot → Label → Prop) : Fills P .empty [] :=
  ⟨rfl, fun h => by simp [Layout.empty] at h⟩

theorem Fills.mono {P Q : Slot → Label → Prop} {l : Layout} {table : DispatchTable}
    (h : Fills P l table) (hPQ : ∀ slot label, P slot label → Q slot label) : Fills Q l table where
  length := h.length
  slot hi := by
    obtain ⟨label, hlabel, hp⟩ := h.slot hi
    exact ⟨label, hlabel, hPQ _ _ hp⟩

theorem DispatchTable.getElem?_place {table : DispatchTable} {i : Nat} (hi : i ≤ table.length)
    (label : Label) (j : Nat) :
    (table.place i label)[j]? = if j = i then some label else table[j]? :=
  getElem?_set_or_append hi label j

theorem DispatchTable.length_place {table : DispatchTable} {i : Nat} (label : Label) :
    (table.place i label).length = if i < table.length then table.length else table.length + 1 := by
  unfold DispatchTable.place
  split <;> simp

theorem length_placeSlot {slots : List Slot} {i : Nat} (slot : Slot) :
    (placeSlot slots i slot).length =
      if i < slots.length then slots.length else slots.length + 1 := by
  rw [placeSlot_natCast]
  split <;> simp

variable {level : Nat} {l : Layout} {table : DispatchTable} {P Q : Slot → Label → Prop}

/-- A method is added to a layout, and its label to the table. -/
theorem Fills.addMethod (h : Fills P l table) (hl : l.Proper level) {name : String}
    {sig : Signature} (hp : l.placement (.method name sig level) ≠ .clash) {label : Label}
    (hkeep : ∀ slot label, slot.name ≠ name → P slot label → Q slot label)
    (hnew : Q ⟨name, l.methodEntry name sig level⟩ label) :
    Fills Q (l.addMethod name sig level) (table.place (l.methodOffset name).toNat label) := by
  obtain ⟨i, (hi : i ≤ l.methods.length), hoff, hindex⟩ := hl.exists_index hp
  have hmethods : (l.addMethod name sig level).methods =
      placeSlot l.methods i ⟨name, l.methodEntry name sig level⟩ := Layout.slots_add hoff
  have hslot : (l.methodOffset name).toNat = i := congrArg Int.toNat hoff
  rw [hslot]
  refine ⟨?_, fun {j slot} hj => ?_⟩
  · rw [DispatchTable.length_place, hmethods, length_placeSlot, h.length]
  · rw [hmethods, placeSlot_natCast, getElem?_set_or_append hi] at hj
    rw [DispatchTable.getElem?_place (by rw [h.length]; exact hi)]
    split at hj
    · rename_i hji
      obtain rfl : _ = slot := by simpa using hj
      exact ⟨label, if_pos hji, hnew⟩
    · rename_i hji
      obtain ⟨label', hlabel', hP⟩ := h.slot hj
      exact ⟨label', by rw [if_neg hji]; exact hlabel',
        hkeep _ _ (fun hn => hji ((hindex .method j slot hj).1 hn).2) hP⟩

@[simp] theorem methods_addFields (l : Layout) (level : Nat) (fs : List TypedName) :
    (l.addFields level fs).methods = l.methods := by
  induction fs generalizing l with
  | nil => rfl
  | cons f fs ih =>
    rw [Layout.addFields, List.foldl_cons, ← Layout.addFields, ih]
    rfl

theorem Fills.addFields (h : Fills P l table) (fs : List TypedName) :
    Fills P (l.addFields level fs) table :=
  ⟨by rw [methods_addFields]; exact h.length, fun hi => h.slot (by rwa [methods_addFields] at hi)⟩

/-! ### The methods of a class -/

@[simp] theorem Routine.name_bindInner (env : Env) (f : Routine) :
    (f.bindInner env).name = f.name := by
  cases f
  rfl

/-- A routine is bound in the same way wherever it is stored. -/
theorem Routine.bindInner_offset (env : Env) (f : Routine) (offset : Option Int) :
    Routine.bindInner env { f with offset := offset } =
      { f.bindInner env with offset := offset } := by
  cases f
  rfl

theorem map_ty_placeParams (offset : Int) (params : List TypedName) :
    (placeParams offset params).map (·.ty) = params.map (·.ty) := by
  induction params generalizing offset with
  | nil => rfl
  | cons p ps ih => simp [placeParams, ih]

@[simp] theorem Routine.signature_bindInner (env : Env) (f : Routine) :
    (f.bindInner env).signature = f.signature := by
  obtain ⟨name, params, ret, decls, body, line, offset⟩ := f
  simp only [Routine.bindInner, Routine.signature, map_ty_placeParams]

/-- Where a slot has its label from: the superclass, or the block of one of the given methods, which
are numbered from `k` on. -/
def MethodSlot (k : Nat) (inherited : Slot → Label → Prop) (ms : List Routine) (slot : Slot)
    (label : Label) : Prop :=
  (slot.name ∉ ms.map (·.name) ∧ inherited slot label) ∨
    ∃ earlier m later, ms = earlier ++ m :: later ∧ m.name = slot.name ∧
      slot.entry.ty = .method m.signature ∧
      label = blockLabel (k + Routine.blockCountAll earlier)

/-- One more method leaves the slots of other names as they are. -/
theorem MethodSlot.snoc {k : Nat} {inherited : Slot → Label → Prop} {ms : List Routine}
    {slot : Slot} {label : Label} (h : MethodSlot k inherited ms slot label) {m : Routine}
    (hne : slot.name ≠ m.name) : MethodSlot k inherited (ms ++ [m]) slot label := by
  rcases h with ⟨hmem, hin⟩ | ⟨earlier, m', later, rfl, hrest⟩
  · exact .inl ⟨by simpa [hne] using hmem, hin⟩
  · exact .inr ⟨earlier, m', later ++ [m], by simp, hrest⟩

/-- The methods of a class give the table the labels of their blocks. -/
theorem fills_addMethods {env : Env} {k : Nat} {inherited : Slot → Label → Prop}
    {done ms : List Routine} (h : Fills (MethodSlot k inherited done) l table)
    (hl : l.Proper level)
    (hfits : l.Fits (ms.map fun m => .method m.name m.signature level)) :
    Fills (MethodSlot k inherited (done ++ (l.placeMethods level ms).map (Routine.bindInner env)))
      (l.addMethods level ms) (methodTable (k + Routine.blockCountAll done) table
        ((l.placeMethods level ms).map (Routine.bindInner env))) := by
  induction ms generalizing l table done with
  | nil => simpa [Layout.addMethods, Layout.placeMethods, methodTable] using h
  | cons m ms ih =>
    rw [Layout.placeMethods, List.map_cons, Routine.bindInner_offset]
    obtain ⟨bound, hbound⟩ : ∃ bound : Routine,
        bound = { m.bindInner env with offset := some (l.methodOffset m.name) } := ⟨_, rfl⟩
    have hname : bound.name = m.name := hbound ▸ Routine.name_bindInner env m
    have hsig : bound.signature = m.signature := hbound ▸ Routine.signature_bindInner env m
    have hindex : bound.slotIndex = (l.methodOffset m.name).toNat := by rw [hbound]; rfl
    have hstep : Fills (MethodSlot k inherited (done ++ [bound]))
        (l.addMethod m.name m.signature level)
        (table.place (l.methodOffset m.name).toNat
          (blockLabel (k + Routine.blockCountAll done))) := by
      refine h.addMethod hl hfits.1 (fun slot label hne hslot => hslot.snoc (hname ▸ hne))
        (.inr ?_)
      exact ⟨done, bound, [], rfl, hname, congrArg Ty.method hsig.symm, rfl⟩
    have hproper := hl.add (a := .method m.name m.signature level) trivial rfl hfits.1
    have hrest := ih hstep hproper hfits.2
    rw [List.append_assoc, List.singleton_append, Routine.blockCountAll_append,
      ← Nat.add_assoc] at hrest
    rw [← hbound, methodTable, hindex]
    exact hrest

/-- A table has as many labels as the layout has methods, if no method has the place of a field. -/
theorem length_methodTable {env : Env} {k : Nat} {ms : List Routine}
    (hlen : table.length = l.methods.length)
    (hslots : ∀ m ∈ (l.placeMethods level ms).map (Routine.bindInner env),
      ∃ i : Nat, m.offset = some (i : Int)) :
    (methodTable k table ((l.placeMethods level ms).map (Routine.bindInner env))).length =
      (l.addMethods level ms).methods.length := by
  induction ms generalizing l table k with
  | nil => exact hlen
  | cons m ms ih =>
    rw [Layout.placeMethods, List.map_cons, Routine.bindInner_offset] at hslots ⊢
    rw [List.forall_mem_cons] at hslots
    obtain ⟨⟨i, hi⟩, hslots⟩ := hslots
    rw [Option.some.injEq] at hi
    refine ih ?_ hslots
    simp only [Routine.slotIndex, Option.getD_some, Layout.addMethod, Layout.methodEntry, hi,
      Int.toNat_natCast]
    rw [DispatchTable.length_place, length_placeSlot, hlen]

/-- The blocks of methods are numbered one after the other. -/
theorem methodBlocks_append (n k : Nat) (ms ms' : List Routine) :
    methodBlocks n k (ms ++ ms') = methodBlocks n k ms ++
      methodBlocks (n + Routine.labelCountAll ms) (k + Routine.blockCountAll ms) ms' := by
  induction ms generalizing n k with
  | nil => rfl
  | cons m ms ih => simp [methodBlocks, ih, Nat.add_assoc]

theorem isInfix_methodBlocks (n k : Nat) (earlier later : List Routine) (m : Routine) :
    m.outline (n + Routine.labelCountAll earlier) (k + Routine.blockCountAll earlier) <:+:
      methodBlocks n k (earlier ++ m :: later) := by
  rw [methodBlocks_append, methodBlocks, ← List.append_assoc]
  exact List.infix_append _ _ _

namespace ClassDecl

theorem hoistedAll_append (n k : Nat) (cs cs' : List ClassDecl) :
    hoistedAll n k (cs ++ cs') = hoistedAll n k cs ++
      hoistedAll (n + labelCountAll cs) (k + blockCountAll cs) cs' := by
  induction cs generalizing n k with
  | nil => rfl
  | cons c cs ih => simp [hoistedAll, ih, Nat.add_assoc]

theorem isInfix_hoistedAll (n k : Nat) (before after : List ClassDecl) (c : ClassDecl) :
    methodBlocks (n + labelCountAll before) (k + blockCountAll before) c.methods <:+:
      hoistedAll n k (before ++ c :: after) := by
  rw [hoistedAll_append, hoistedAll, ← List.append_assoc]
  exact List.infix_append _ _ _

end ClassDecl

/-- The blocks of a method are part of the program, numbered from where those of the declarations
before it end. -/
theorem Program.isInfix_outline {p : Program} {before after : List ClassDecl} {c : ClassDecl}
    (hclasses : p.classes = before ++ c :: after) {earlier later : List Routine} {m : Routine}
    (hmethods : c.methods = earlier ++ m :: later) :
    m.outline (ClassDecl.labelCountAll before + Routine.labelCountAll earlier)
      (ClassDecl.blockCountAll before + Routine.blockCountAll earlier) <:+:
        p.outline := by
  cases p with
  | body main => simp [Program.classes] at hclasses
  | letIn classes decls main =>
    obtain rfl : classes = before ++ c :: after := hclasses
    have hclass := ClassDecl.isInfix_hoistedAll 0 0 before after c
    rw [Nat.zero_add, Nat.zero_add, hmethods] at hclass
    refine ((isInfix_methodBlocks _ _ earlier later m).trans hclass).trans ?_
    exact (List.suffix_append _ _).isInfix.trans (List.prefix_append _ _).isInfix

/-- Binding the methods of a class leaves them where they are. -/
theorem map_name_placeMethods (env : Env) (l : Layout) (level : Nat) (ms : List Routine) :
    ((l.placeMethods level ms).map (Routine.bindInner env)).map (·.name) = ms.map (·.name) := by
  induction ms generalizing l with
  | nil => rfl
  | cons m ms ih => simp [Layout.placeMethods, ih]

theorem mem_bound (env : Env) (l : Layout) (level : Nat) {ms : List Routine} {m : Routine}
    (hm : m ∈ ms) : ∃ offset, { m.bindInner env with offset := offset } ∈
      (l.placeMethods level ms).map (Routine.bindInner env) := by
  induction ms generalizing l with
  | nil => cases hm
  | cons m' ms ih =>
    simp only [Layout.placeMethods, List.map_cons, Routine.bindInner_offset]
    rcases List.mem_cons.1 hm with rfl | hm
    · exact ⟨_, List.mem_cons_self⟩
    · obtain ⟨offset, hmem⟩ := ih (l.addMethod m'.name m'.signature level) hm
      exact ⟨offset, List.mem_cons_of_mem _ hmem⟩

theorem exists_of_mem_bound {env : Env} {l : Layout} {level : Nat} {ms : List Routine}
    {r : Routine} (hr : r ∈ (l.placeMethods level ms).map (Routine.bindInner env)) :
    ∃ m ∈ ms, ∃ offset, r = { m.bindInner env with offset := offset } := by
  induction ms generalizing l with
  | nil => cases hr
  | cons m ms ih =>
    simp only [Layout.placeMethods, List.map_cons, Routine.bindInner_offset, List.mem_cons] at hr
    rcases hr with rfl | hr
    · exact ⟨m, List.mem_cons_self, _, rfl⟩
    · obtain ⟨m', hm', hrest⟩ := ih hr
      exact ⟨m', List.mem_cons_of_mem _ hm', hrest⟩

end ObjectLang
