import ObjectLang.Proofs.Machine.Refinement

/-!
# Assembled code

A listing that defines no label twice and refers to none that it does not define can be assembled,
and every label becomes the number of operations before its definition (`Listing.assemble_eq`).

The outline of such a listing is an image in which it stands from address `0` on
(`Image.placed_ofPieces`), and the assembled listing is the code of that image
(`Image.links_ofPieces`).
-/

namespace ObjectLang

namespace Listing

/-- The labels that a listing defines, in order. -/
def labels (code : Listing) : List Label :=
  code.filterMap fun
    | .label l => some l
    | .op _ => none

@[simp] theorem labels_nil : labels [] = [] := rfl

@[simp] theorem labels_cons_op (o : Op Label) (code : Listing) :
    labels (.op o :: code) = labels code := rfl

@[simp] theorem labels_cons_label (l : Label) (code : Listing) :
    labels (.label l :: code) = l :: labels code := rfl

@[simp] theorem labels_append (a b : Listing) : labels (a ++ b) = labels a ++ labels b := by
  simp [labels]

/-- The labels that a listing refers to, in order. -/
def targets (code : Listing) : List Label := code.filterMap Instruction.target?

@[simp] theorem targets_nil : targets [] = [] := rfl

@[simp] theorem targets_cons_op (o : Op Label) (code : Listing) :
    targets (.op o :: code) = o.target?.toList ++ targets code := by
  cases h : o.target? <;> simp [targets, Instruction.target?, h]

@[simp] theorem targets_cons_label (l : Label) (code : Listing) :
    targets (.label l :: code) = targets code := rfl

@[simp] theorem targets_append (a b : Listing) : targets (a ++ b) = targets a ++ targets b := by
  simp [targets]

@[simp] theorem ops_cons_op (o : Op Label) (code : Listing) : ops (.op o :: code) = o :: ops code :=
  rfl

@[simp] theorem ops_cons_label (l : Label) (code : Listing) : ops (.label l :: code) = ops code :=
  rfl

theorem ops_append (a b : Listing) : ops (a ++ b) = ops a ++ ops b := List.filterMap_append

theorem ops_straight (os : List (Op Label)) : ops (straight os) = os := by
  induction os with
  | nil => rfl
  | cons o os ih => rw [straight_cons, ops_cons_op, ih]

/-- Number of operations before the definition of a label. -/
def address (l : Label) : Listing → Nat
  | [] => 0
  | .op _ :: rest => address l rest + 1
  | .label m :: rest => if m = l then 0 else address l rest

theorem addressesFrom_ok {code : Listing} (hn : code.labels.Nodup) (start : Nat)
    (known : NameMap Nat) (hk : ∀ l ∈ code.labels, known.get? l = none) :
    ∃ found, addressesFrom start known code = .ok found ∧
      (∀ l ∈ code.labels, found.get? l = some (start + code.address l)) ∧
      ∀ l, l ∉ code.labels → found.get? l = known.get? l := by
  induction code generalizing start known with
  | nil => exact ⟨known, rfl, by simp, by simp⟩
  | cons i code ih =>
    cases i with
    | op o =>
      obtain ⟨found, hf, hin, hout⟩ := ih hn (start + 1) known hk
      refine ⟨found, hf, fun l hl => ?_, hout⟩
      rw [hin l hl, address]
      congr 1
      omega
    | label m =>
      simp only [labels_cons_label, List.nodup_cons, List.mem_cons, forall_eq_or_imp] at hn hk
      have hk' : ∀ l ∈ labels code, (known.insert m start).get? l = none := by
        intro l hl
        have hne : l ≠ m := fun h => hn.1 (h ▸ hl)
        rw [NameMap.get?_insert_of_ne start hne]
        exact hk.2 l hl
      obtain ⟨found, hf, hin, hout⟩ := ih hn.2 start (known.insert m start) hk'
      refine ⟨found, ?_, fun l hl => ?_, fun l hl => ?_⟩
      · simp [addressesFrom, NameMap.contains, hk.1, hf]
      · rcases List.mem_cons.1 hl with rfl | hl
        · rw [hout l hn.1, NameMap.get?_insert_self]
          simp [address]
        · have hne : m ≠ l := fun h => hn.1 (h ▸ hl)
          rw [hin l hl, address, if_neg hne]
      · simp only [labels_cons_label, List.mem_cons, not_or] at hl
        rw [hout l hl.2, NameMap.get?_insert_of_ne start hl.1]

theorem mapTarget_locate {known : NameMap Nat} {address : Label → Nat} {o : Op Label}
    (h : ∀ l, o.target? = some l → known.get? l = some (address l)) :
    o.mapTarget (locate known) = .ok (o.link address) := by
  have hl : ∀ l, o.target? = some l → locate known l = .ok (address l) := fun l hl => by
    simp [locate, h l hl]
  cases o with
  | pushTarget l | beq l | bleq l | b l =>
    simp only [Op.mapTarget, hl l rfl]
    rfl
  | _ => rfl

theorem mapM_mapTarget {known : NameMap Nat} {address : Label → Nat} {ops : List (Op Label)}
    (h : ∀ o ∈ ops, ∀ l, o.target? = some l → known.get? l = some (address l)) :
    ops.mapM (fun o => o.mapTarget (locate known)) = .ok (ops.map (Op.link address)) := by
  induction ops with
  | nil => rfl
  | cons o ops ih =>
    simp only [List.forall_mem_cons] at h
    rw [List.mapM_cons, mapTarget_locate h.1, ih h.2]
    rfl

theorem mem_targets_of_mem_ops {code : Listing} {o : Op Label} (ho : o ∈ code.ops) {l : Label}
    (hl : o.target? = some l) : l ∈ code.targets := by
  simp only [ops, List.mem_filterMap] at ho
  obtain ⟨i, hi, hio⟩ := ho
  cases i with
  | op o' =>
    obtain rfl : o' = o := by simpa using hio
    exact List.mem_filterMap.2 ⟨.op o', hi, hl⟩
  | label m => simp at hio

/-- **Assembly succeeds where labels are defined once and nothing else is referred to.** -/
theorem assemble_eq {code : Listing} (hn : code.labels.Nodup)
    (ht : ∀ l ∈ code.targets, l ∈ code.labels) :
    code.assemble = .ok (code.ops.map (Op.link fun l => code.address l)) := by
  obtain ⟨found, hf, hin, -⟩ := addressesFrom_ok hn 0 .empty (by simp)
  have hops : ∀ o ∈ code.ops, ∀ l, o.target? = some l → found.get? l = some (code.address l) := by
    intro o ho l hl
    rw [hin l (ht l (mem_targets_of_mem_ops ho hl)), Nat.zero_add]
  simp only [assemble, addresses, hf, bind, Except.bind]
  exact mapM_mapTarget hops

end Listing

theorem mem_labels {code : Listing} {l : Label} : l ∈ code.labels ↔ .label l ∈ code := by
  rw [Listing.labels, List.mem_filterMap]
  constructor
  · rintro ⟨o | m, hmem, hl⟩
    · cases hl
    · exact Option.some.inj hl ▸ hmem
  · exact fun hmem => ⟨_, hmem, rfl⟩

/-! ### The image of an outline -/

/-- The labels that an outline defines. -/
def labels (code : List Piece) : List Label := Listing.labels (code.map (Piece.erase 0))

/-- The labels that an outline refers to. -/
def targets (code : List Piece) : List Label := Listing.targets (code.map (Piece.erase 0))

theorem labels_erase (size : Nat) (code : List Piece) :
    Listing.labels (code.map (Piece.erase size)) = labels code := by
  induction code with
  | nil => rfl
  | cons p code ih =>
    simp only [labels] at ih ⊢
    obtain (o | l) | _ | site | cls := p <;> simp [Piece.erase, ih]

theorem targets_erase (size : Nat) (code : List Piece) :
    Listing.targets (code.map (Piece.erase size)) = targets code := by
  induction code with
  | nil => rfl
  | cons p code ih =>
    simp only [targets] at ih ⊢
    obtain (o | l) | _ | site | cls := p <;> simp [Piece.erase, Op.target?, ih]

theorem address_erase (size : Nat) (l : Label) (code : List Piece) :
    Listing.address l (code.map (Piece.erase size)) =
      Listing.address l (code.map (Piece.erase 0)) := by
  induction code with
  | nil => rfl
  | cons p code ih =>
    obtain (o | l) | _ | site | cls := p <;> simp [Piece.erase, Listing.address, ih]

namespace Image

/-- The image of an outline that stands alone. -/
def ofPieces (code : List Piece) : Image where
  piece i := (code.filter Piece.isOp)[i]?
  address l := Listing.address l (code.map (Piece.erase 0))
  size := width code

variable {code before : List Piece}

theorem address_append {l : Label} (h : l ∉ labels before) (rest : List Piece) :
    Listing.address l ((before ++ rest).map (Piece.erase 0)) =
      width before + Listing.address l (rest.map (Piece.erase 0)) := by
  induction before with
  | nil => simp
  | cons p before ih =>
    obtain (o | m) | _ | site | cls := p <;>
      simp only [labels, List.map_cons, Piece.erase, Listing.labels_cons_op,
        Listing.labels_cons_label, List.mem_cons, not_or] at h ih ⊢ <;>
      simp only [List.cons_append, List.map_cons, Piece.erase, Listing.address, width_cons_op,
        width_cons_label, width_cons_memoryEnd, width_cons_dispatch, width_cons_construct]
    case label => rw [if_neg (fun hm => h.1 hm.symm), ih h.2]
    all_goals
      rw [ih h]
      omega

theorem placed_after (before rest : List Piece) (hn : (labels (before ++ rest)).Nodup) :
    (ofPieces (before ++ rest)).Placed (width before) rest := by
  induction rest generalizing before with
  | nil => trivial
  | cons p rest ih =>
    have hassoc : before ++ p :: rest = (before ++ [p]) ++ rest := by simp
    have hrest := ih (before ++ [p]) (hassoc ▸ hn)
    rw [← hassoc] at hrest
    have hfilter : (List.filter Piece.isOp before).length = width before := by
      rw [width, List.countP_eq_length_filter]
    obtain (o | l) | _ | site | cls := p
    case label =>
      refine ⟨?_, by simpa using hrest⟩
      have hl : l ∉ labels before := by
        simp only [labels, List.map_append, Listing.labels_append, List.map_cons, Piece.erase,
          Listing.labels_cons_label] at hn
        exact fun h => (List.nodup_append.1 hn).2.2 l h l List.mem_cons_self rfl
      change Listing.address l _ = _
      rw [address_append hl]
      simp [Piece.erase, Listing.address]
    all_goals
      refine ⟨?_, by simpa using hrest⟩
      change (List.filter Piece.isOp _)[_]? = _
      rw [List.filter_append, List.getElem?_append_right (by omega), hfilter,
        List.filter_cons_of_pos rfl]
      simp

/-- An outline that defines no label twice stands in its image from address `0` on. -/
theorem placed_ofPieces (hn : (labels code).Nodup) : (ofPieces code).Placed 0 code :=
  placed_after [] code hn

theorem ops_erase (size : Nat) (code : List Piece) :
    (Listing.ops (code.map (Piece.erase size))).map Instruction.op =
      (code.filter Piece.isOp).map (Piece.erase size) := by
  induction code with
  | nil => rfl
  | cons p code ih =>
    obtain (o | l) | _ | site | cls := p
    case label => simpa [Piece.erase, Piece.isOp] using ih
    all_goals
      rw [List.filter_cons_of_pos rfl]
      simp [Piece.erase, ih]

/-- The assembled listing of an outline is the code of its image. -/
theorem links_ofPieces (size : Nat) (code : List Piece) :
    Segmented.Links size (ofPieces code)
      ((Listing.ops (code.map (Piece.erase size))).map
        (Op.link fun l => Listing.address l (code.map (Piece.erase size)))).toArray := by
  have hops := ops_erase size code
  have hlen := congrArg List.length hops
  simp only [List.length_map] at hlen
  constructor
  · simp only [List.size_toArray, List.length_map, hlen]
    exact List.countP_eq_length_filter.symm
  · intro i p hp
    change (List.filter Piece.isOp code)[i]? = some p at hp
    have hget : ((Listing.ops (code.map (Piece.erase size))).map Instruction.op)[i]? =
        some (p.erase size) := by
      rw [hops, List.getElem?_map, hp]
      rfl
    simp only [List.getElem?_map, Option.map_eq_some_iff] at hget
    obtain ⟨o, ho, hpo⟩ := hget
    refine ⟨o, hpo.symm, ?_⟩
    simp only [List.getElem?_toArray, List.getElem?_map, ho, Option.map_some, address_erase]
    rfl

end Image

end ObjectLang
