import ObjectLang.Ty.Subtype
import Mathlib.Data.List.Nodup
import Mathlib.Data.List.Perm.Subperm
import Mathlib.Data.Nat.Find
import Mathlib.Logic.Relation
import Mathlib.Order.Defs.Unbundled

/-!
# Subtyping is a preorder

The walk up a hierarchy stops after as many steps as there are edges.  Nothing is lost by that: a
class that can be reached at all is reached before the walk has used all edges, also where they form
a cycle (`Hierarchy.inherits_iff`).  So inheritance is reflexive and transitive, and with it
subtyping (`Hierarchy.isSubtype_refl`, `Hierarchy.isSubtype_trans`) and subtyping of signatures.

Parameters go the other way, but transitivity is an induction on the type in the middle, which is
the same one for both directions.

Two comparable types have a least upper bound, the wider one of them, and `join?` finds it whichever
of the two comes first (`Hierarchy.isPreorder_with_joins`).  There is no antisymmetry: in a cycle of
classes each is below the others, so the two orders may give different types, but equivalent ones.
-/

namespace ObjectLang

namespace Hierarchy

variable {h : Hierarchy} {c d : String}

/-! ### Walking up -/

/-- The class is the other one or a direct or indirect subclass of it. -/
def Reaches (h : Hierarchy) : String → String → Prop :=
  Relation.ReflTransGen fun cls superclass => h.parent? cls = some superclass

/-- The class that is `n` edges above another one. -/
def above? (h : Hierarchy) : Nat → String → Option String
  | 0, cls => some cls
  | n + 1, cls => (h.parent? cls).bind (h.above? n)

theorem above?_add (m n : Nat) (c : String) :
    h.above? (m + n) c = (h.above? m c).bind (h.above? n) := by
  induction m generalizing c with
  | zero => simp [above?]
  | succ m ih =>
    rw [Nat.succ_add, above?, above?]
    cases h.parent? c with
    | none => rfl
    | some superclass => exact ih superclass

/-- The walk has the classes that are fewer edges above than it has steps. -/
theorem mem_walk_iff {n : Nat} : d ∈ h.walk n c ↔ ∃ i < n, h.above? i c = some d := by
  induction n generalizing c with
  | zero => simp [walk]
  | succ n ih =>
    rw [walk, List.mem_cons]
    constructor
    · rintro (rfl | hd)
      · exact ⟨0, Nat.succ_pos n, rfl⟩
      · cases hp : h.parent? c with
        | none => simp [hp] at hd
        | some superclass =>
          rw [hp] at hd
          obtain ⟨i, hi, hup⟩ := ih.1 hd
          exact ⟨i + 1, by omega, by simpa [above?, hp] using hup⟩
    · rintro ⟨i, hi, hup⟩
      cases i with
      | zero => exact .inl (Option.some.inj hup).symm
      | succ i =>
        obtain ⟨superclass, hp, hup⟩ := Option.bind_eq_some_iff.1 hup
        rw [hp]
        exact .inr (ih.2 ⟨i, by omega, hup⟩)

theorem reaches_iff_above? : h.Reaches c d ↔ ∃ i, h.above? i c = some d := by
  constructor
  · intro hr
    induction hr with
    | refl => exact ⟨0, rfl⟩
    | tail _ hp ih =>
      obtain ⟨i, hup⟩ := ih
      refine ⟨i + 1, ?_⟩
      rw [above?_add, hup, Option.bind_some, above?, hp]
      rfl
  · rintro ⟨i, hup⟩
    induction i generalizing c with
    | zero => exact Option.some.inj hup ▸ .refl
    | succ i ih =>
      obtain ⟨superclass, hp, hup⟩ := Option.bind_eq_some_iff.1 hup
      exact .head hp (ih hup)

theorem mem_of_parent? (hp : h.parent? c = some d) : c ∈ h.supers.entries.map Prod.fst := by
  obtain ⟨edge, hedge, -⟩ := Option.map_eq_some_iff.1 hp
  exact List.mem_map.2
    ⟨edge, List.mem_of_find?_eq_some hedge, by simpa using List.find?_some hedge⟩

/-- A class that is first met after `n` edges is at most as many edges away as there are. -/
theorem le_size_of_first {n : Nat} (hn : h.above? n c = some d)
    (hfirst : ∀ i < n, h.above? i c ≠ some d) : n ≤ h.supers.size := by
  have hsplit : ∀ i < n, ∃ a, h.above? i c = some a ∧ h.above? (n - i) a = some d := by
    intro i hi
    have hadd := h.above?_add i (n - i) c
    rw [Nat.add_sub_cancel' (Nat.le_of_lt hi), hn] at hadd
    exact Option.bind_eq_some_iff.1 hadd.symm
  -- the classes on the way are different, or else there would be a shorter way
  have hnodup : ((List.range n).map fun i => (h.above? i c).getD "").Nodup := by
    rw [List.nodup_map_iff_inj_on List.nodup_range]
    intro i hi j hj heq
    rw [List.mem_range] at hi hj
    by_contra hne
    wlog hij : i < j generalizing i j
    · exact this j hj i hi heq.symm (Ne.symm hne) (by omega)
    obtain ⟨a, ha, -⟩ := hsplit i hi
    obtain ⟨b, hb, hbd⟩ := hsplit j hj
    obtain rfl : a = b := by simpa [ha, hb] using heq
    refine hfirst (i + (n - j)) (by omega) ?_
    rw [above?_add, ha]
    exact hbd
  -- and each of them has an edge
  have hedges : ((List.range n).map fun i => (h.above? i c).getD "") ⊆
      h.supers.entries.map Prod.fst := by
    intro name hname
    obtain ⟨i, hi, rfl⟩ := List.mem_map.1 hname
    rw [List.mem_range] at hi
    obtain ⟨a, ha, had⟩ := hsplit i hi
    obtain ⟨k, hk⟩ : ∃ k, n - i = k + 1 := ⟨n - i - 1, by omega⟩
    rw [hk] at had
    obtain ⟨superclass, hp, -⟩ := Option.bind_eq_some_iff.1 had
    rw [ha, Option.getD_some]
    exact mem_of_parent? hp
  simpa [NameMap.size] using (hnodup.subperm hedges).length_le

/-- **The bounded walk finds every class that can be reached.** -/
theorem inherits_iff : h.inherits c d = true ↔ h.Reaches c d := by
  rw [inherits, List.contains_iff_mem, ancestors, mem_walk_iff, reaches_iff_above?]
  constructor
  · rintro ⟨i, -, hup⟩
    exact ⟨i, hup⟩
  · intro hex
    classical
    have hle := le_size_of_first (Nat.find_spec hex) fun i hi => Nat.find_min hex hi
    exact ⟨Nat.find hex, by omega, Nat.find_spec hex⟩

/-! ### Signatures -/

theorem relatesAll_iff {side : Side} {as bs : List Ty} (hlen : as.length = bs.length) :
    h.relatesAll side as bs = true ↔ List.Forall₂ (fun a b => h.relates side a b = true) as bs := by
  induction as generalizing bs with
  | nil =>
    obtain rfl := List.length_eq_zero_iff.1 hlen.symm
    simp [relatesAll]
  | cons a as ih =>
    obtain _ | ⟨b, bs⟩ := bs
    · cases hlen
    rw [relatesAll, Bool.and_eq_true, List.forall₂_cons, ih (by simpa using hlen)]

/-- A signature is below another one if its result is and the parameters of the other one are below
its own. -/
theorem signatureSubtype_iff {s t : Signature} :
    h.signatureSubtype s t = true ↔ h.isSubtype s.ret t.ret = true ∧
      List.Forall₂ (fun a b => h.isSubtype b a = true) s.params t.params := by
  obtain ⟨params, ret⟩ := s
  simp only [signatureSubtype, relatesSignatures, Bool.and_eq_true, beq_iff_eq, Signature.arity]
  constructor
  · rintro ⟨⟨hlen, hret⟩, hparams⟩
    refine ⟨hret, ((relatesAll_iff hlen).1 hparams).imp fun a b hab => ?_⟩
    rwa [← relates_above]
  · rintro ⟨hret, hparams⟩
    refine ⟨⟨hparams.length_eq, hret⟩, (relatesAll_iff hparams.length_eq).2 ?_⟩
    refine hparams.imp fun a b hab => ?_
    rwa [← relates_above] at hab

theorem arity_eq_of_signatureSubtype {s t : Signature} (hs : h.signatureSubtype s t = true) :
    s.arity = t.arity := (signatureSubtype_iff.1 hs).2.length_eq

/-! ### Reflexivity -/

theorem isSubtype_refl (h : Hierarchy) (a : Ty) : h.isSubtype a a = true := by
  induction a using Ty.ind with
  | int | bool | null | method | shape => rfl
  | arrow s hparams hret =>
    rw [isSubtype_arrow, signatureSubtype_iff]
    exact ⟨hret, List.forall₂_same.2 hparams⟩
  | ref name => exact inherits_iff.2 .refl

theorem signatureSubtype_refl (h : Hierarchy) (s : Signature) : h.signatureSubtype s s = true := by
  rw [← isSubtype_arrow]
  exact h.isSubtype_refl _

/-! ### Transitivity -/

theorem forall₂_trans_of_mem {α : Type} {r : α → α → Prop} {as bs cs : List α}
    (htrans : ∀ b ∈ bs, ∀ a c, r a b → r b c → r a c) (hab : List.Forall₂ r as bs)
    (hbc : List.Forall₂ r bs cs) : List.Forall₂ r as cs := by
  induction hab generalizing cs with
  | nil => exact hbc
  | cons hr _ ih =>
    cases hbc with
    | cons hr' hrest =>
      rw [List.forall_mem_cons] at htrans
      exact .cons (htrans.1 _ _ hr hr') (ih htrans.2 hrest)

theorem isSubtype_trans {a b c : Ty} (hab : h.isSubtype a b = true)
    (hbc : h.isSubtype b c = true) : h.isSubtype a c = true := by
  induction b using Ty.ind generalizing a c with
  | arrow t hparams hret =>
    -- only `null` and functions are below a function, and only functions above it
    cases a with
    | null => cases c <;> rfl
    | arrow s =>
      cases c with
      | arrow u =>
        rw [isSubtype_arrow, signatureSubtype_iff] at hab hbc ⊢
        refine ⟨hret hab.1 hbc.1, forall₂_trans_of_mem ?_ hab.2 hbc.2⟩
        exact fun b hb a c hba hcb => hparams b hb hcb hba
      | _ => nomatch hbc
    | _ => nomatch hab
  | ref d =>
    cases a with
    | null => cases c <;> rfl
    | ref b =>
      cases c with
      | ref e => exact inherits_iff.2 ((inherits_iff.1 hab).trans (inherits_iff.1 hbc))
      | _ => nomatch hbc
    | _ => nomatch hab
  | int | bool | null | method | shape =>
    cases a <;> cases c <;>
      first | rfl | exact absurd hab Bool.false_ne_true | exact absurd hbc Bool.false_ne_true

theorem signatureSubtype_trans {s t u : Signature} (hst : h.signatureSubtype s t = true)
    (htu : h.signatureSubtype t u = true) : h.signatureSubtype s u = true := by
  rw [← isSubtype_arrow] at hst htu ⊢
  exact isSubtype_trans hst htu

theorem isPreorder_isSubtype (h : Hierarchy) : IsPreorder Ty (h.isSubtype · · = true) where
  refl := h.isSubtype_refl
  trans _ _ _ := isSubtype_trans

theorem isPreorder_signatureSubtype (h : Hierarchy) :
    IsPreorder Signature (h.signatureSubtype · · = true) where
  refl := h.signatureSubtype_refl
  trans _ _ _ := signatureSubtype_trans

/-! ### The least type -/

theorem isSubtype_null_left (h : Hierarchy) (a : Ty) : h.isSubtype .null a = true := by
  cases a <;> rfl

theorem isSubtype_null_right_iff {a : Ty} : h.isSubtype a .null = true ↔ a = .null := by
  constructor
  · intro ha
    cases a with
    | null => rfl
    | _ => exact absurd ha Bool.false_ne_true
  · rintro rfl
    exact h.isSubtype_refl _

/-! ### Joins -/

/-- A type above two others, and below every type that is above both. -/
structure IsJoin (h : Hierarchy) (a b join : Ty) : Prop where
  left : h.isSubtype a join = true
  right : h.isSubtype b join = true
  least : ∀ c, h.isSubtype a c = true → h.isSubtype b c = true → h.isSubtype join c = true

namespace IsJoin

variable {a b join other : Ty}

theorem of_isSubtype (hab : h.isSubtype a b = true) : h.IsJoin a b b where
  left := hab
  right := h.isSubtype_refl b
  least _ _ hbc := hbc

theorem symm (hj : h.IsJoin a b join) : h.IsJoin b a join where
  left := hj.right
  right := hj.left
  least c hbc hac := hj.least c hac hbc

/-- Two joins of the same types are below each other. -/
theorem equiv (hj : h.IsJoin a b join) (hj' : h.IsJoin a b other) :
    h.isSubtype join other = true ∧ h.isSubtype other join = true :=
  ⟨hj.least other hj'.left hj'.right, hj'.least join hj.left hj.right⟩

end IsJoin

theorem comparable_comm (a b : Ty) : h.comparable a b = h.comparable b a := Bool.or_comm _ _

theorem isSome_join? (a b : Ty) : (h.join? a b).isSome = h.comparable a b := by
  unfold join? comparable
  split
  · simp_all
  · split <;> simp_all

theorem isJoin_of_join? {a b join : Ty} (hj : h.join? a b = some join) : h.IsJoin a b join := by
  unfold join? at hj
  split at hj
  · rename_i hab
    cases hj
    exact .of_isSubtype hab
  · split at hj
    · rename_i hba
      cases hj
      exact (IsJoin.of_isSubtype hba).symm
    · cases hj

theorem join?_swap (a b : Ty) :
    Option.Rel (fun c d => h.isSubtype c d = true ∧ h.isSubtype d c = true)
      (h.join? a b) (h.join? b a) := by
  have hsome : (h.join? a b).isSome = (h.join? b a).isSome := by
    rw [isSome_join?, isSome_join?, comparable_comm]
  cases hab : h.join? a b with
  | none =>
    rw [hab, Option.isSome_none] at hsome
    rw [Option.not_isSome_iff_eq_none.1 (ne_true_of_eq_false hsome.symm)]
    exact .none
  | some c =>
    rw [hab, Option.isSome_some] at hsome
    obtain ⟨d, hba⟩ := Option.isSome_iff_exists.1 hsome.symm
    rw [hba]
    exact .some ((isJoin_of_join? hab).equiv (isJoin_of_join? hba).symm)

/-- **Subtyping is a preorder with a least type and joins**, whatever the edges of the hierarchy.
Subtyping of types and of signatures is reflexive and transitive, and `null` is below every type and
nothing else below `null`.  Two types have a join exactly if they are comparable; it is above both
and below all types that are above both, and in the other order there is an equivalent one. -/
theorem isPreorder_with_joins (h : Hierarchy) :
    IsPreorder Ty (h.isSubtype · · = true) ∧
      IsPreorder Signature (h.signatureSubtype · · = true) ∧
      (∀ a, h.isSubtype .null a = true ∧ (h.isSubtype a .null = true → a = .null)) ∧
      ∀ a b, (h.join? a b).isSome = h.comparable a b ∧
        (∀ c, h.join? a b = some c → h.IsJoin a b c) ∧
        Option.Rel (fun c d => h.isSubtype c d = true ∧ h.isSubtype d c = true)
          (h.join? a b) (h.join? b a) := by
  refine ⟨h.isPreorder_isSubtype, h.isPreorder_signatureSubtype, fun a => ?_, fun a b => ?_⟩
  · exact ⟨h.isSubtype_null_left a, isSubtype_null_right_iff.1⟩
  · exact ⟨isSome_join? a b, fun _ => isJoin_of_join?, join?_swap a b⟩

/-- Between classes that extend each other the wider type is the second one. -/
example :
    let h := (Hierarchy.empty.extend "Hen" "Egg").extend "Egg" "Hen"
    h.join? (.ref "Hen") (.ref "Egg") = some (.ref "Egg") ∧
      h.join? (.ref "Egg") (.ref "Hen") = some (.ref "Hen") := ⟨rfl, rfl⟩

end Hierarchy

end ObjectLang
