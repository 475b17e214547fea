import ObjectLang.Proofs.Annotations
import ObjectLang.Proofs.Code.Labels
import ObjectLang.Proofs.Machine.Frames
import ObjectLang.Proofs.Reference
import ObjectLang.Proofs.Scopes
import ObjectLang.Proofs.Subtyping
import ObjectLang.Typing.Program

/-!
# The world of a run

A `World` is what stays the same throughout a run: the classes and where their dispatch tables are,
and the code.  Types are read as sets of words (`World.Holds`): a reference is the address of an
object whose class descends from the one named, and wherever `null` may occur it is a value of
every type.  Functions cannot be used as values, so apart from `null` there is none.

`World.Lawful` collects what the classes of a checked program satisfy: members have the places that
their layouts say, a subclass keeps the places of its superclass and refines its types, and a
dispatch table holds, slot by slot, the block of the nearest declaration of the method.  Classes
with a field of the type of a method are exempt if there is no `null` to put into the field, as then
there are no objects of these.
-/

namespace ObjectLang

open Reference (Store Classes)
open Segmented (Word)

/-- What stays the same throughout a run. -/
structure World where
  hierarchy : Hierarchy
  classes : ClassTable
  /-- The classes as evaluation sees them. -/
  references : Classes
  /-- The block of the method that objects of a class have by a name has the given number. -/
  provides : String → String → Nat → Prop
  /-- The outline of the whole program. -/
  outline : List Piece
  /-- Where the dispatch table of a class begins. -/
  home : String → Nat
  /-- The addresses in the dispatch table of a class. -/
  table : String → List Nat
  /-- May there be objects of a class? -/
  inhabited : String → Prop
  /-- Does `null` occur? -/
  nulls : Prop
  /-- Are all annotations plain? -/
  plainTypes : Prop
  /-- How many words the stack may have. -/
  limit : Nat

namespace World

variable (K : World)

/-- The code of the program. -/
def img : Image := Image.ofPieces K.outline

/-! ### Types as sets of words -/

/-- The word is that of `null`, which occurs. -/
def Null (v : Int64) : Prop := K.nulls ∧ v = -1

/-- The class is the other one or a subclass of it. -/
def Descends : String → String → Prop :=
  Relation.ReflTransGen fun cls superclass => K.hierarchy.parent? cls = some superclass

/-- The word is a value of the type. -/
def Holds (σ : Store) : Ty → Int64 → Prop
  | .int, _ => True
  | .bool, v => v = 0 ∨ v = 1 ∨ K.Null v
  | .ref cls, v => K.Null v ∨ ∃ o, σ.object? v = some o ∧ K.Descends o.cls cls
  | _, v => K.Null v

/-- Every value of the first type is one of the second. -/
def Sub (a b : Ty) : Prop := ∀ σ v, K.Holds σ a v → K.Holds σ b v

/-- What has the first signature can be called by the second. -/
structure SubSignature (s t : Signature) : Prop where
  params : List.Forall₂ K.Sub t.params s.params
  ret : K.Sub s.ret t.ret

variable {K}

theorem Holds.null {σ : Store} {v : Int64} (h : K.Null v) (ty : Ty) : K.Holds σ ty v := by
  cases ty with
  | int => trivial
  | bool => exact .inr (.inr h)
  | ref => exact .inl h
  | null | arrow | method | shape => exact h

theorem Holds.truth {σ : Store} (b : Bool) : K.Holds σ .bool (Reference.truth b) := by
  cases b
  · exact .inl rfl
  · exact .inr (.inl rfl)

theorem Sub.refl (a : Ty) : K.Sub a a := fun _ _ h => h

theorem Sub.trans {a b c : Ty} (h₁ : K.Sub a b) (h₂ : K.Sub b c) : K.Sub a c :=
  fun σ v h => h₂ σ v (h₁ σ v h)

theorem sub_of_isAtomicSubtype {a b : Ty} (h : K.hierarchy.isAtomicSubtype a b = true) :
    K.Sub a b := by
  intro σ v hv
  cases a with
  | null => exact Holds.null hv b
  | int | bool | arrow | method | shape =>
    cases b <;> simp only [Hierarchy.isAtomicSubtype, Ty.sameKind, Bool.false_eq_true] at h <;>
      first | exact hv | trivial
  | ref c =>
    cases b <;> simp only [Hierarchy.isAtomicSubtype, Ty.sameKind, Bool.false_eq_true] at h
    rename_i d
    rcases hv with hv | ⟨o, ho, hd⟩
    · exact .inl hv
    · have hcd : K.Descends c d := Hierarchy.inherits_iff.1 h
      exact .inr ⟨o, ho, hd.trans hcd⟩

/-- The checker's subtyping is sound. -/
theorem sub_of_isSubtype {a b : Ty} (h : K.hierarchy.isSubtype a b = true) : K.Sub a b := by
  cases a with
  | arrow s =>
    cases b with
    | arrow t => exact fun _ _ hv => hv
    | int | bool | null | method | ref | shape =>
      exact sub_of_isAtomicSubtype
        (by simpa [Hierarchy.isSubtype, Hierarchy.relates, Hierarchy.relatesAtoms] using h)
  | int | bool | null | method | ref | shape =>
    exact sub_of_isAtomicSubtype
      (by simpa [Hierarchy.isSubtype, Hierarchy.relates, Hierarchy.relatesAtoms] using h)

theorem forall₂_sub_of_relatesAll {as bs : List Ty} (hlen : as.length = bs.length)
    (h : K.hierarchy.relatesAll .above as bs = true) : List.Forall₂ K.Sub bs as := by
  induction as generalizing bs with
  | nil =>
    obtain rfl := List.length_eq_zero_iff.1 hlen.symm
    exact .nil
  | cons a as ih =>
    obtain _ | ⟨b, bs⟩ := bs
    · cases hlen
    simp only [Hierarchy.relatesAll, Bool.and_eq_true, Hierarchy.relates_above] at h
    exact .cons (sub_of_isSubtype h.1) (ih (by simpa using hlen) h.2)

theorem subSignature_of_signatureSubtype {s t : Signature}
    (h : K.hierarchy.signatureSubtype s t = true) : K.SubSignature s t := by
  obtain ⟨params, ret⟩ := s
  simp only [Hierarchy.signatureSubtype, Hierarchy.relatesSignatures, Bool.and_eq_true,
    beq_iff_eq] at h
  exact ⟨forall₂_sub_of_relatesAll h.1.1 h.2, sub_of_isSubtype h.1.2⟩

theorem SubSignature.refl (s : Signature) : K.SubSignature s s :=
  ⟨List.forall₂_same.2 fun a _ => Sub.refl a, Sub.refl _⟩

theorem forall₂_sub_trans {as bs cs : List Ty} (h₁ : List.Forall₂ K.Sub as bs)
    (h₂ : List.Forall₂ K.Sub bs cs) : List.Forall₂ K.Sub as cs := by
  induction h₁ generalizing cs with
  | nil => exact h₂
  | cons hab _ ih =>
    cases h₂ with
    | cons hbc hrest => exact .cons (hab.trans hbc) (ih hrest)

theorem SubSignature.trans {s t u : Signature} (h₁ : K.SubSignature s t)
    (h₂ : K.SubSignature t u) : K.SubSignature s u :=
  ⟨forall₂_sub_trans h₂.params h₁.params, h₁.ret.trans h₂.ret⟩

theorem holds_params {σ : Store} {as bs : List Ty} (h : List.Forall₂ K.Sub as bs)
    {vs : List Int64} (hv : List.Forall₂ (K.Holds σ) as vs) : List.Forall₂ (K.Holds σ) bs vs := by
  induction h generalizing vs with
  | nil => exact hv
  | cons hab _ ih =>
    cases hv with
    | cons ha hrest => exact .cons (hab σ _ ha) (ih hrest)

/-! ### Code and classes -/

variable (K)

/-- The world has the classes that the environment knows. -/
def Knows (env : Env) : Prop :=
  ∀ name r, env.classes.records.get? name = some r → K.classes.records.get? name = some r

/-- The block of a routine declared in an environment stands at an address, and nothing is wrong
with the routine. -/
structure Ready (env : Env) (f : Routine) (a : Nat) : Prop where
  block : ∃ n k, (f.bindInner env).outline n k <:+: K.outline ∧ K.img.address (blockLabel k) = a
  names : f.innerErrors env = []
  types : (f.bindInner env).typeErrors K.hierarchy = []
  knows : K.Knows env
  annotations : K.plainTypes → ∀ ty ∈ f.annotations, ty.isPlain = true
  nulls : f.mentionsNull = true → K.nulls

/-- The environment is that of the methods of a class: all it has besides classes are members. -/
structure InClass (env : Env) (cls : String) : Prop where
  opened : env.Opened
  level : env.level = 1
  member : ∀ {name : String} {e : Entry}, env.scopes.lookup name = some e → e.ty.shape? = none →
    ∃ l, K.classes.layout? cls = some l ∧ l.member? name = some e

/-- The first member can stand in the place of the second. -/
structure Overrides (e' e : Entry) : Prop where
  offset : e'.offset = e.offset
  kind : e'.isMethod = e.isMethod
  value : e.isMethod = false → K.Sub e'.ty e.ty
  method : ∀ {s : Signature}, e.ty = .method s → ∃ s', e'.ty = .method s' ∧ K.SubSignature s' s

/-- What the slot of a method stands for, for objects of a class. -/
structure Implements (cls : String) (i : Nat) (slot : Slot) (f : Routine) (a : Nat) : Prop where
  declared : K.references.method? cls slot.name = some f
  signature : slot.entry.ty = .method f.signature
  stored : (K.table cls)[i]? = some a
  compiled : ∃ k, K.provides cls slot.name k ∧ K.img.address (blockLabel k) = a
  ready : ∃ env owner, K.InClass env owner ∧ K.Descends cls owner ∧ K.Ready env f a

/-- What the classes and the code of a checked program satisfy. -/
structure Lawful : Prop where
  size : K.img.size < 2 ^ 63
  placed : K.img.Placed 0 K.outline
  inhabited : ∀ {cls : String} {l : Layout}, K.classes.layout? cls = some l →
    (l.HasMethodField → K.nulls) → K.inhabited cls
  proper : ∀ {cls : String} {l : Layout}, K.classes.layout? cls = some l → K.inhabited cls →
    l.Proper 1
  shape : ∀ {cls : String} {e : Entry}, K.classes.entry? cls = some e →
    ∃ l, K.classes.layout? cls = some l ∧ e.ty = .shape l.shape
  fields : ∀ {cls : String} {l : Layout}, K.classes.layout? cls = some l →
    K.references.fields? cls = some (l.fields.map (·.name))
  parent : ∀ {cls superclass : String}, K.hierarchy.parent? cls = some superclass →
    K.inhabited cls → K.inhabited superclass ∧
      ∃ l' l, K.classes.layout? cls = some l' ∧ K.classes.layout? superclass = some l ∧
        ∀ name e, l.member? name = some e → ∃ e', l'.member? name = some e' ∧ K.Overrides e' e
  methods : ∀ {cls : String} {l : Layout}, K.classes.layout? cls = some l → K.inhabited cls →
    ∀ {i : Nat} {slot : Slot}, l.methods[i]? = some slot → ∃ f a, K.Implements cls i slot f a

variable {K}

theorem Overrides.refl (e : Entry) : K.Overrides e e :=
  ⟨rfl, rfl, fun _ => Sub.refl _, fun {s} h => ⟨s, h, .refl s⟩⟩

theorem Overrides.trans {e e' e'' : Entry} (h₁ : K.Overrides e'' e') (h₂ : K.Overrides e' e) :
    K.Overrides e'' e where
  offset := h₁.offset.trans h₂.offset
  kind := h₁.kind.trans h₂.kind
  value hk := (h₁.value (h₂.kind.trans hk)).trans (h₂.value hk)
  method hs := by
    obtain ⟨s', hs', hsub⟩ := h₂.method hs
    obtain ⟨s'', hs'', hsub'⟩ := h₁.method hs'
    exact ⟨s'', hs'', hsub'.trans hsub⟩

/-- With a class, the classes it descends from may have objects. -/
theorem Lawful.inhabited_of_descends (h : K.Lawful) {cls ancestor : String}
    (hd : K.Descends cls ancestor) (hin : K.inhabited cls) : K.inhabited ancestor := by
  induction hd using Relation.ReflTransGen.head_induction_on with
  | refl => exact hin
  | head hp _ ih => exact ih (h.parent hp hin).1

/-- A class has every member of the classes it descends from. -/
theorem Lawful.member (h : K.Lawful) {cls ancestor : String} (hd : K.Descends cls ancestor)
    (hin : K.inhabited cls) {l l' : Layout} (hl' : K.classes.layout? cls = some l')
    (hl : K.classes.layout? ancestor = some l) {name : String} {e : Entry}
    (he : l.member? name = some e) : ∃ e', l'.member? name = some e' ∧ K.Overrides e' e := by
  induction hd using Relation.ReflTransGen.head_induction_on generalizing l' with
  | refl =>
    obtain rfl : l = l' := by simpa [hl] using hl'
    exact ⟨e, he, .refl e⟩
  | head hp _ ih =>
    obtain ⟨hin', l₁, l₂, hl₁, hl₂, hover⟩ := h.parent hp hin
    obtain rfl : l₁ = l' := by simpa [hl₁] using hl'
    obtain ⟨e₂, he₂, ho₂⟩ := ih hin' hl₂
    obtain ⟨e₁, he₁, ho₁⟩ := hover name e₂ he₂
    exact ⟨e₁, he₁, ho₁.trans ho₂⟩

theorem Knows.layout {env : Env} (h : K.Knows env) {cls : String} {l : Layout}
    (hl : env.classes.layout? cls = some l) : K.classes.layout? cls = some l := by
  obtain ⟨r, hr, rfl⟩ := Option.map_eq_some_iff.1 hl
  exact Option.map_eq_some_iff.2 ⟨r, h cls r hr, rfl⟩

theorem Knows.entry {env : Env} (h : K.Knows env) {cls : String} {e : Entry}
    (he : env.classes.entry? cls = some e) : K.classes.entry? cls = some e := by
  obtain ⟨r, hr, rfl⟩ := Option.map_eq_some_iff.1 he
  exact Option.map_eq_some_iff.2 ⟨r, h cls r hr, rfl⟩

theorem lt_size {i : Nat} {p : Piece} (h : K.img.piece i = some p) : i < K.img.size := by
  have hlt := (List.getElem?_eq_some_iff.1 h).1
  rwa [← List.countP_eq_length_filter] at hlt

/-- Any part of the outline stands somewhere. -/
theorem Lawful.placed_infix (h : K.Lawful) {code : List Piece} (hc : code <:+: K.outline) :
    ∃ i, K.img.Placed i code := by
  obtain ⟨before, after, hcode⟩ := hc
  have hp := h.placed
  rw [← hcode, Image.placed_append, Image.placed_append] at hp
  exact ⟨_, hp.1.2⟩

end World

end ObjectLang
