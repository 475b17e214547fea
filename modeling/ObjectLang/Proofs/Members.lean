import ObjectLang.Naming.Class
import Mathlib.Data.List.Basic

/-!
# Slots keep their places

A layout is made by adding members, one after the other, to that of the superclass, which is made in
the same way.  Names may come up again, for a member of the same kind or of the other one, in any
order, so that several slots of both kinds may have the same name.

Still the latest member of a name is in the slot that its kind and its offset say
(`Layout.Coherent`).  That is why a member takes over a slot of its own name or gets a new one
(`Layout.Coherent.adds`), and why members that are added later never move or rename a slot
(`Layout.coherent_of_additions`).

Fields and methods are treated alike: both are an `Addition` of some `MemberKind`, and all that is
shown here and later of a layout to which a member is added (`Layout.add`) is shown once for both.
-/

namespace ObjectLang

theorem NameMap.get?_insert {α : Type} (m : NameMap α) (name other : String) (value : α) :
    (m.insert name value).get? other = if other = name then some value else m.get? other := by
  split
  · rename_i h
    rw [h, get?_insert_self]
  · rename_i h
    exact get?_insert_of_ne value h

/-! ### Slots of a list -/

/-- An element put at an index that is at most the next free one. -/
theorem getElem?_set_or_append {α : Type} {as : List α} {i : Nat} (hi : i ≤ as.length) (a : α)
    (j : Nat) : (if i < as.length then as.set i a else as ++ [a])[j]? =
      if j = i then some a else as[j]? := by
  rcases Nat.lt_or_ge i as.length with hlt | hge
  · rw [if_pos hlt, List.getElem?_set]
    by_cases hij : i = j
    · simp [hij, hij ▸ hlt]
    · rw [if_neg hij, if_neg (Ne.symm hij)]
  · obtain rfl : i = as.length := by omega
    rw [if_neg (by omega)]
    rcases Nat.lt_trichotomy j as.length with h | h | h
    · rw [List.getElem?_append_left h, if_neg (by omega)]
    · simp [h]
    · rw [List.getElem?_eq_none (by simp; omega), if_neg (by omega),
        List.getElem?_eq_none (by omega)]

theorem placeSlot_natCast (slots : List Slot) (i : Nat) (slot : Slot) :
    placeSlot slots i slot = if i < slots.length then slots.set i slot else slots ++ [slot] := by
  unfold placeSlot
  by_cases h : i < slots.length
  · rw [if_pos ⟨by omega, by omega⟩, if_pos h, Int.toNat_natCast]
  · rw [if_neg (by omega), if_neg h]

theorem mem_placeSlot {slots : List Slot} {index : Int} {slot other : Slot}
    (h : other ∈ placeSlot slots index slot) : other ∈ slots ∨ other = slot := by
  unfold placeSlot at h
  split at h
  · exact List.mem_or_eq_of_mem_set h
  · simpa using h

theorem length_le_placeSlot (slots : List Slot) (index : Int) (slot : Slot) :
    slots.length ≤ (placeSlot slots index slot).length := by
  unfold placeSlot
  split <;> simp

/-! ### Members and their kinds -/

/-- Fields are stored in objects, methods in dispatch tables. -/
inductive MemberKind where
  | field
  | method
deriving DecidableEq

/-- The offset of the slot with the given index. -/
def MemberKind.offset : MemberKind → Nat → Int
  | field, i => -(i : Int) - 1
  | method, i => i

theorem MemberKind.offset_inj {kind : MemberKind} {i j : Nat} (h : kind.offset i = kind.offset j) :
    i = j := by
  cases kind <;> simp only [offset] at h <;> omega

/-- The kind of a member with the given type. -/
def Ty.memberKind (ty : Ty) : MemberKind := if ty.isMethod then .method else .field

/-- A member that is added to a layout, at a nesting level. -/
inductive Addition where
  | field (name : String) (ty : Ty) (level : Nat)
  | method (name : String) (signature : Signature) (level : Nat)

namespace Addition

def name : Addition → String
  | field name _ _ | method name _ _ => name

def ty : Addition → Ty
  | field _ ty _ => ty
  | method _ signature _ => .method signature

def level : Addition → Nat
  | field _ _ level | method _ _ level => level

def kind : Addition → MemberKind
  | field _ _ _ => .field
  | method _ _ _ => .method

/-- It is not a field with the type of a method. -/
def Regular : Addition → Prop
  | field _ ty _ => ty.isMethod = false
  | method _ _ _ => True

instance (a : Addition) : Decidable a.Regular :=
  match a with
  | field _ ty _ => inferInstanceAs (Decidable (ty.isMethod = false))
  | method _ _ _ => inferInstanceAs (Decidable True)

theorem Regular.memberKind {a : Addition} (h : a.Regular) : a.ty.memberKind = a.kind := by
  cases a with
  | field name ty level => exact if_neg (ne_true_of_eq_false h)
  | method name signature level => rfl

end Addition

/-- What a slot keeps when its member is replaced: a name and an offset. -/
def Slot.place (slot : Slot) : String × Int := (slot.name, slot.entry.offset)

/-- The members of a class, in the order in which they are added. -/
def ClassDecl.additions (c : ClassDecl) (level : Nat) : List Addition :=
  c.fields.map (fun f => .field f.name f.ty level) ++
    c.methods.map fun m => .method m.name m.signature level

namespace Layout

variable (l : Layout) (a : Addition)

/-- The slots of members of a kind. -/
def slots : MemberKind → List Slot
  | .field => l.fields
  | .method => l.methods

/-- How a member fits in. -/
def placement : Addition → Placement
  | .field name _ _ => l.fieldPlacement name
  | .method name _ _ => l.methodPlacement name

/-- The offset that a member gets. -/
def offsetOf : Addition → Int
  | .field name _ _ => l.fieldOffset name
  | .method name _ _ => l.methodOffset name

/-- Add a member. -/
def add : Addition → Layout
  | .field name ty level => l.addField name ty level
  | .method name signature level => l.addMethod name signature level

/-- Add members, the first one first. -/
def addAll (as : List Addition) : Layout := as.foldl add l

/-- The slot of a member that is added. -/
def slotOf : Slot := ⟨a.name, a.level, a.ty, l.offsetOf a⟩

/-- The slot of a member that is added after all others of its kind. -/
def nextSlot : Slot := ⟨a.name, a.level, a.ty, a.kind.offset (l.slots a.kind).length⟩

variable {l a}

/-! ### One member -/

/-- A member is added under its name, and every other name has the member it had. -/
theorem member?_add (name : String) :
    (l.add a).member? name = if name = a.name then some (l.slotOf a).entry else l.member? name := by
  cases a <;> exact NameMap.get?_insert _ _ _ _

theorem slots_add_of_ne {kind : MemberKind} (h : kind ≠ a.kind) :
    (l.add a).slots kind = l.slots kind := by
  cases a <;> cases kind <;> first | rfl | exact absurd rfl h

theorem exists_slots_add (l : Layout) (a : Addition) : ∃ index : Int,
    (l.add a).slots a.kind = placeSlot (l.slots a.kind) index (l.slotOf a) := by
  cases a <;> exact ⟨_, rfl⟩

theorem mem_slots_add {kind : MemberKind} {slot : Slot} (h : slot ∈ (l.add a).slots kind) :
    slot ∈ l.slots kind ∨ kind = a.kind ∧ slot = l.slotOf a := by
  by_cases hk : kind = a.kind
  · subst hk
    obtain ⟨index, hslots⟩ := l.exists_slots_add a
    rw [hslots] at h
    exact (mem_placeSlot h).imp_right fun hslot => ⟨rfl, hslot⟩
  · rw [slots_add_of_ne hk] at h
    exact .inl h

/-- No slot gets lost. -/
theorem length_slots_le_add (l : Layout) (a : Addition) (kind : MemberKind) :
    (l.slots kind).length ≤ ((l.add a).slots kind).length := by
  by_cases hk : kind = a.kind
  · subst hk
    obtain ⟨index, hslots⟩ := l.exists_slots_add a
    rw [hslots]
    exact length_le_placeSlot _ _ _
  · exact Nat.le_of_eq (by rw [slots_add_of_ne hk])

theorem slots_add {i : Nat} (hi : l.offsetOf a = a.kind.offset i) :
    (l.add a).slots a.kind = placeSlot (l.slots a.kind) i (l.slotOf a) := by
  cases a with
  | field name ty level =>
    have hindex : -(l.offsetOf (.field name ty level)) - 1 = (i : Int) := by
      rw [hi, Addition.kind, MemberKind.offset]
      omega
    rw [← hindex]
    rfl
  | method name signature level =>
    have hindex : l.offsetOf (.method name signature level) = (i : Int) := hi
    rw [← hindex]
    rfl

theorem getElem?_slots_add {i : Nat} (hi : i ≤ (l.slots a.kind).length)
    (hoffset : l.offsetOf a = a.kind.offset i) (kind : MemberKind) (j : Nat) :
    ((l.add a).slots kind)[j]? =
      if kind = a.kind ∧ j = i then some (l.slotOf a) else (l.slots kind)[j]? := by
  by_cases hk : kind = a.kind
  · subst hk
    rw [slots_add hoffset, placeSlot_natCast, getElem?_set_or_append hi]
    simp only [true_and]
  · rw [slots_add_of_ne hk, if_neg fun hnew => hk hnew.1]

theorem slots_add_next (h : l.offsetOf a = a.kind.offset (l.slots a.kind).length) :
    (l.add a).slots a.kind = l.slots a.kind ++ [l.nextSlot a] := by
  rw [slots_add h, placeSlot_natCast, if_neg (by omega), slotOf, h, nextSlot]

theorem memberKind_eq_iff {e : Entry} {kind : MemberKind} :
    e.ty.memberKind = kind ↔ e.isMethod = decide (kind = .method) := by
  unfold Ty.memberKind Entry.isMethod
  cases e.ty.isMethod <;> cases kind <;> decide

/-- Members of both kinds fit in by the same rule. -/
theorem placement_eq : l.placement a =
    match l.member? a.name with
    | none => .fresh
    | some old => if old.ty.memberKind = a.kind then .replace else .clash := by
  cases a <;>
  · simp only [placement, fieldPlacement, methodPlacement, Addition.name, Addition.kind,
      memberKind_eq_iff]
    cases l.member? _ with
    | none => rfl
    | some old => cases hk : old.isMethod <;> simp [hk]

/-- Members of both kinds get their offset by the same rule. -/
theorem offsetOf_eq : l.offsetOf a =
    match l.member? a.name with
    | none => a.kind.offset (l.slots a.kind).length
    | some old =>
      if old.ty.memberKind = a.kind then old.offset else a.kind.offset (l.slots a.kind).length := by
  cases a <;>
  · simp only [offsetOf, fieldOffset, methodOffset, Addition.name, Addition.kind, memberKind_eq_iff,
      slots, MemberKind.offset]
    cases l.member? _ with
    | none => rfl
    | some old => cases hk : old.isMethod <;> simp [hk]

theorem placement_ne_clash_iff : l.placement a ≠ .clash ↔
    ∀ old, l.member? a.name = some old → old.ty.memberKind = a.kind := by
  rw [placement_eq]
  cases l.member? a.name with
  | none => simp
  | some old => by_cases hk : old.ty.memberKind = a.kind <;> simp [hk]

/-- A member gets the offset of one of its kind and name. -/
theorem offsetOf_eq_of_member {old : Entry} (hold : l.member? a.name = some old)
    (hk : old.ty.memberKind = a.kind) : l.offsetOf a = old.offset := by
  rw [offsetOf_eq, hold]
  exact if_pos hk

/-- What adding one member preserves, adding several does. -/
theorem addAll_induction {P : Layout → Prop} {as : List Addition} (h : P l)
    (hstep : ∀ l, P l → ∀ a ∈ as, P (l.add a)) : P (l.addAll as) :=
  List.foldlRecOn as Layout.add h hstep

/-! ### Coherence -/

/-- Every member is where its kind and its offset say. -/
structure Coherent (l : Layout) : Prop where
  /-- A slot holds a member of its kind, at its offset. -/
  slot : ∀ {kind : MemberKind} {i : Nat} {slot : Slot}, (l.slots kind)[i]? = some slot →
    slot.entry.ty.memberKind = kind ∧ slot.entry.offset = kind.offset i
  /-- The latest member of a name is in the slot of its kind and offset. -/
  member : ∀ {name : String} {e : Entry}, l.member? name = some e →
    ∃ i, e.offset = e.ty.memberKind.offset i ∧ (l.slots e.ty.memberKind)[i]? = some ⟨name, e⟩
  /-- What has a slot is a member. -/
  named : ∀ {kind : MemberKind} {slot : Slot}, slot ∈ l.slots kind →
    (l.member? slot.name).isSome = true

/-- What adding a member does to a layout. -/
structure Adds (l : Layout) (a : Addition) : Prop where
  /-- Slots of the other kind stay as they are. -/
  others : ∀ kind ≠ a.kind, (l.add a).slots kind = l.slots kind
  /-- A member with a new name gets a slot at the end. -/
  fresh : l.member? a.name = none →
    l.placement a = .fresh ∧ (l.add a).slots a.kind = l.slots a.kind ++ [l.nextSlot a]
  /-- So does one with the name of a member of the other kind. -/
  clash : ∀ old, l.member? a.name = some old → old.ty.memberKind ≠ a.kind →
    l.placement a = .clash ∧ (l.add a).slots a.kind = l.slots a.kind ++ [l.nextSlot a]
  /-- A member of the same kind and name is replaced, and its offset stays the same. -/
  replace : ∀ old, l.member? a.name = some old → old.ty.memberKind = a.kind →
    l.placement a = .replace ∧ ∃ before after,
      l.slots a.kind = before ++ ⟨a.name, old⟩ :: after ∧
        (l.add a).slots a.kind = before ++ ⟨a.name, a.level, a.ty, old.offset⟩ :: after

theorem coherent_empty : Coherent empty where
  slot {kind _ _} h := by cases kind <;> simp [empty, slots] at h
  member h := by simp [empty, member?] at h
  named {kind _} h := by cases kind <;> simp [empty, slots] at h

namespace Coherent

/-- The slot that a member is put into: the next free one, or one of its name. -/
theorem exists_index (h : l.Coherent) (a : Addition) : ∃ i ≤ (l.slots a.kind).length,
    l.offsetOf a = a.kind.offset i ∧
      ∀ slot, (l.slots a.kind)[i]? = some slot → slot.name = a.name := by
  have hnext : ∀ slot, (l.slots a.kind)[(l.slots a.kind).length]? = some slot →
      slot.name = a.name := by simp
  rw [offsetOf_eq]
  split
  · exact ⟨_, Nat.le_refl _, rfl, hnext⟩
  · rename_i old hold
    split
    · rename_i hk
      obtain ⟨i, hoffset, hi⟩ := h.member hold
      rw [hk] at hoffset hi
      refine ⟨i, Nat.le_of_lt (List.getElem?_eq_some_iff.1 hi).1, hoffset, fun slot hslot => ?_⟩
      rw [hi, Option.some.injEq] at hslot
      rw [← hslot]
    · exact ⟨_, Nat.le_refl _, rfl, hnext⟩

/-- Members that are added keep a layout coherent. -/
theorem add (h : l.Coherent) (ha : a.Regular) : (l.add a).Coherent := by
  obtain ⟨i, hi, hoffset, hname⟩ := h.exists_index a
  have hslots := getElem?_slots_add hi hoffset
  constructor
  case slot =>
    intro kind j slot hj
    rw [hslots] at hj
    split at hj
    · rename_i hnew
      obtain rfl := Option.some.inj hj
      rw [hnew.1, hnew.2]
      exact ⟨ha.memberKind, hoffset⟩
    · exact h.slot hj
  case member =>
    intro name e he
    rw [member?_add] at he
    split at he
    · rename_i hn
      obtain rfl := Option.some.inj he
      have hkind : (l.slotOf a).entry.ty.memberKind = a.kind := ha.memberKind
      refine ⟨i, hkind ▸ hoffset, ?_⟩
      rw [hslots, if_pos ⟨hkind, rfl⟩, hn]
      rfl
    · rename_i hn
      obtain ⟨j, hj, hslot⟩ := h.member he
      refine ⟨j, hj, ?_⟩
      -- The new member took over a slot of its own name only.
      rw [hslots, if_neg, hslot]
      rintro ⟨hk, rfl⟩
      rw [hk] at hslot
      exact hn (hname _ hslot)
  case named =>
    intro kind slot hslot
    obtain ⟨j, hj⟩ := List.mem_iff_getElem?.1 hslot
    rw [hslots] at hj
    rw [member?_add]
    split at hj
    · obtain rfl := Option.some.inj hj
      have hn : (l.slotOf a).name = a.name := rfl
      rw [if_pos hn]
      rfl
    · split
      · rfl
      · exact h.named (List.mem_of_getElem? hj)

theorem adds (h : l.Coherent) (a : Addition) : l.Adds a where
  others kind hk := slots_add_of_ne hk
  fresh hnone := by
    refine ⟨by rw [placement_eq, hnone], slots_add_next ?_⟩
    rw [offsetOf_eq, hnone]
  clash old hold hk := by
    refine ⟨?_, slots_add_next ?_⟩
    · rw [placement_eq, hold]
      exact if_neg hk
    · rw [offsetOf_eq, hold]
      exact if_neg hk
  replace old hold hk := by
    have hnew := offsetOf_eq_of_member hold hk
    obtain ⟨i, hoffset, hi⟩ := h.member hold
    rw [hk] at hoffset hi
    obtain ⟨hlt, hget⟩ := List.getElem?_eq_some_iff.1 hi
    refine ⟨?_, (l.slots a.kind).take i, (l.slots a.kind).drop (i + 1), ?_, ?_⟩
    · rw [placement_eq, hold]
      exact if_pos hk
    · rw [← hget, ← List.drop_eq_getElem_cons hlt, List.take_append_drop]
    · rw [slots_add (hnew.trans hoffset), placeSlot_natCast, if_pos hlt,
        List.set_eq_take_append_cons_drop, if_pos hlt, slotOf, hnew]

/-- Each method slot has a signature, so that a shape has as many methods as there are slots. -/
theorem shape_methods (h : l.Coherent) :
    l.shape.methods.map Ty.method = l.methods.map (·.entry.ty) := by
  have hslot : ∀ slot ∈ l.methods,
      slot.entry.ty.signature?.map Ty.method = some slot.entry.ty := by
    intro slot hmem
    obtain ⟨i, hi⟩ : ∃ i : Nat, (l.slots .method)[i]? = some slot := List.mem_iff_getElem?.1 hmem
    have hkind : slot.entry.ty.memberKind = .method := (h.slot hi).1
    have hmethod : slot.entry.ty.isMethod = true := memberKind_eq_iff.1 hkind
    cases hty : slot.entry.ty <;> simp_all [Ty.isMethod, Ty.signature?]
  rw [shape, List.map_filterMap]
  exact List.filterMap_eq_map_iff_forall_eq_some.2 hslot

end Coherent

/-! ### Places -/

/-- The slots that there were keep their places. -/
theorem Adds.keeps_places (h : l.Adds a) (kind : MemberKind) :
    (l.slots kind).map Slot.place <+: ((l.add a).slots kind).map Slot.place := by
  by_cases hk : kind = a.kind
  · subst hk
    cases hold : l.member? a.name with
    | none =>
      rw [(h.fresh hold).2, List.map_append]
      exact List.prefix_append _ _
    | some old =>
      by_cases hk : old.ty.memberKind = a.kind
      · obtain ⟨-, before, after, hbefore, hafter⟩ := h.replace old hold hk
        rw [hbefore, hafter]
        simp [Slot.place]
      · rw [(h.clash old hold hk).2, List.map_append]
        exact List.prefix_append _ _
  · simp only [h.others kind hk, List.prefix_refl]

theorem Coherent.addAll (h : l.Coherent) {as : List Addition} (has : ∀ a ∈ as, a.Regular) :
    (l.addAll as).Coherent ∧ ∀ kind,
      (l.slots kind).map Slot.place <+: ((l.addAll as).slots kind).map Slot.place := by
  induction as generalizing l with
  | nil => exact ⟨h, fun _ => List.prefix_refl _⟩
  | cons a as ih =>
    obtain ⟨hcoherent, hplaces⟩ := ih (h.add (has a List.mem_cons_self))
      fun b hb => has b (List.mem_cons_of_mem a hb)
    exact ⟨hcoherent, fun kind => ((h.adds a).keeps_places kind).trans (hplaces kind)⟩

/-! ### Classes -/

theorem layout_eq_addAll (c : ClassDecl) (env : Env) : c.layout env =
    (c.inherited env).addAll (c.additions (ClassDecl.innerLevel env)) := by
  rw [ClassDecl.layout, ClassDecl.fieldLayout, ClassDecl.additions, addAll, List.foldl_append,
    List.foldl_map, List.foldl_map]
  rfl

/-- **Slots keep their places.**  Whatever members are added, in whatever order, a layout is
coherent and has a shape with one type for each slot.  One more member takes over a slot of its own
kind and name or gets a new one at the end, and so further members, such as those of subclasses,
leave every slot its index, its name and its offset. -/
theorem coherent_of_additions {as bs : List Addition} (h : ∀ a ∈ as ++ bs, a.Regular) :
    let l := empty.addAll as
    l.Coherent ∧
      l.shape.fields = l.fields.map (·.entry.ty) ∧
      l.shape.methods.map Ty.method = l.methods.map (·.entry.ty) ∧
      (∀ a, l.Adds a) ∧
      (∀ (c : ClassDecl) (env : Env), c.inherited env = l →
        c.layout env = l.addAll (c.additions (ClassDecl.innerLevel env))) ∧
      ∀ kind, (l.slots kind).map Slot.place <+: ((l.addAll bs).slots kind).map Slot.place := by
  intro l
  have hl : l.Coherent :=
    (coherent_empty.addAll fun a ha => h a (List.mem_append_left bs ha)).1
  have hplaces := (hl.addAll fun b hb => h b (List.mem_append_right as hb)).2
  refine ⟨hl, rfl, hl.shape_methods, hl.adds, fun c env hc => ?_, hplaces⟩
  rw [layout_eq_addAll, hc]

/-- A name that is both that of methods and of fields, and has slots of each kind. -/
def mixedAdditions : List Addition :=
  [.method "x" ⟨[], .bool⟩ 1, .field "x" .int 1, .method "x" ⟨[], .int⟩ 1, .field "y" .int 1]

/-- Members of a subclass, the last of which replaces the one before. -/
def lateAdditions : List Addition :=
  [.method "x" ⟨[], .bool⟩ 1, .field "y" .bool 1, .field "x" .int 1, .field "x" .bool 1]

theorem coherent_of_additions_mixed :
    let l := empty.addAll mixedAdditions
    (∀ a ∈ mixedAdditions ++ lateAdditions, a.Regular) ∧
      l.fields.map Slot.place = [("x", -1), ("y", -2)] ∧
      l.methods.map Slot.place = [("x", 0), ("x", 1)] ∧
      (l.addAll lateAdditions).fields.map Slot.place = [("x", -1), ("y", -2), ("x", -3)] ∧
      (l.addAll lateAdditions).methods.map Slot.place = [("x", 0), ("x", 1)] ∧
      l.Coherent ∧ (∀ a, l.Adds a) ∧
      ∀ kind, (l.slots kind).map Slot.place <+:
        ((l.addAll lateAdditions).slots kind).map Slot.place := by
  have hregular : ∀ a ∈ mixedAdditions ++ lateAdditions, a.Regular := by decide
  obtain ⟨hcoherent, -, -, hadds, -, hplaces⟩ := coherent_of_additions hregular
  exact ⟨hregular, by decide, by decide, by decide, by decide, hcoherent, hadds, hplaces⟩

end Layout

end ObjectLang
