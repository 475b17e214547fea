import ObjectLang.Proofs.Machine.Stepping
import Mathlib.Data.List.Forall2

/-!
# Validation and assembly

A listing is validated by a search for a label that it refers to and does not define, and it is
assembled by replacing these labels one after the other.  Both enter the definitions into a map
first, and then come upon the same label first: assembly is validation, and after it every operation
with addresses in the place of labels (`Listing.assemble_eq_map`).

The address of a label is the number of operations before its definition, so what is assembled from
there on is what comes after the definition (`Listing.Defines.drop_ops`), also if other definitions
follow at once or nothing follows at all.  A branch to the label, and a jump to its address, goes on
there (`Listing.Enters`).
-/

namespace ObjectLang

namespace Listing

/-! ### Definitions of labels -/

theorem nodup_of_addressesFrom {code : Listing} {start : Nat} {known found : NameMap Nat}
    (h : addressesFrom start known code = .ok found) :
    code.labels.Nodup ∧ ∀ l ∈ code.labels, known.get? l = none := by
  induction code generalizing start known with
  | nil => simp
  | cons i code ih =>
    cases i with
    | op o => exact ih h
    | label m =>
      rw [addressesFrom] at h
      split at h
      · cases h
      · rename_i hfresh
        obtain ⟨hnodup, hnone⟩ := ih h
        have hm : known.get? m = none := by simpa [NameMap.contains] using hfresh
        -- what comes later is not `m`, which is in the map by then
        have hlater : ∀ l ∈ labels code, l ≠ m ∧ known.get? l = none := by
          intro l hl
          have hl' := hnone l hl
          have hne : l ≠ m := by
            rintro rfl
            rw [NameMap.get?_insert_self] at hl'
            cases hl'
          exact ⟨hne, (NameMap.get?_insert_of_ne start hne).symm.trans hl'⟩
        rw [labels_cons_label, List.nodup_cons, List.forall_mem_cons]
        exact ⟨⟨fun hmem => (hlater m hmem).1 rfl, hnodup⟩, hm, fun l hl => (hlater l hl).2⟩

/-- The map of addresses binds the labels that are defined. -/
theorem mem_labels_of_contains {code : Listing} {known : NameMap Nat}
    (h : code.addresses = .ok known) {l : Label} (hl : known.contains l = true) :
    l ∈ code.labels := by
  obtain ⟨found, hfound, -, hout⟩ :=
    addressesFrom_ok (nodup_of_addressesFrom h).1 0 .empty (by simp)
  obtain rfl : known = found := Except.ok.inj (h.symm.trans hfound)
  by_contra hmem
  simp [NameMap.contains, hout l hmem] at hl

/-! ### The first label that is missing -/

theorem mapTarget_locate_eq_error {known : NameMap Nat} {o : Op Label} {l : Label}
    (ho : o.target? = some l) (hl : known.get? l = none) :
    o.mapTarget (locate known) = .error (.labelNotDefined l) := by
  have hlocate : locate known l = .error (.labelNotDefined l) := by simp [locate, hl]
  cases o with
  | pushTarget m | beq m | bleq m | b m =>
    obtain rfl : m = l := Option.some.inj ho
    simp only [Op.mapTarget, hlocate]
    rfl
  | _ => cases ho

/-- Replacing labels fails at the first one that is not known. -/
theorem mapM_mapTarget_eq_error {known : NameMap Nat} {ops : List (Op Label)} {l : Label}
    (h : (ops.filterMap Op.target?).find? (fun l => !known.contains l) = some l) :
    ops.mapM (fun o => o.mapTarget (locate known)) = .error (.labelNotDefined l) := by
  induction ops with
  | nil => cases h
  | cons o ops ih =>
    rw [List.mapM_cons]
    cases ho : o.target? with
    | none =>
      rw [List.filterMap_cons_none ho] at h
      have hkept : o.mapTarget (locate known) = .ok (o.link fun _ => 0) :=
        mapTarget_locate (by simp [ho])
      rw [hkept, ih h]
      rfl
    | some m =>
      rw [List.filterMap_cons_some ho, List.find?_cons] at h
      cases hm : known.get? m with
      | none =>
        obtain rfl : m = l := by simpa [NameMap.contains, hm] using h
        rw [mapTarget_locate_eq_error ho hm]
        rfl
      | some a =>
        have hfound : o.mapTarget (locate known) = .ok (o.link fun _ => a) := by
          refine mapTarget_locate fun l hl => ?_
          rw [← hm, Option.some.inj (ho.symm.trans hl)]
        rw [hfound, ih (by simpa [NameMap.contains, hm] using h)]
        rfl

theorem targets_eq (code : Listing) : code.targets = code.ops.filterMap Op.target? := by
  induction code with
  | nil => rfl
  | cons i code ih =>
    cases i with
    | op o => cases ho : o.target? <;> simp [ho, ih]
    | label m => exact ih

/-- A listing is valid if labels are defined once and nothing else is referred to. -/
theorem of_validate {code : Listing} (h : code.validate = .ok ()) :
    code.labels.Nodup ∧ ∀ l ∈ code.targets, l ∈ code.labels := by
  unfold validate at h
  split at h
  · cases h
  · rename_i known hknown
    refine ⟨(nodup_of_addressesFrom hknown).1, fun l hl => mem_labels_of_contains hknown ?_⟩
    split at h
    · cases h
    · rename_i hfind
      simpa using List.find?_eq_none.1 hfind l hl

/-- **Assembly is validation, and then every operation with addresses in the place of labels.** -/
theorem assemble_eq_map (code : Listing) :
    code.assemble = code.validate.map fun _ => code.ops.map (Op.link fun l => code.address l) := by
  cases hvalid : code.validate with
  | ok _ =>
    obtain ⟨hnodup, hdefined⟩ := of_validate hvalid
    exact assemble_eq hnodup hdefined
  | error e =>
    unfold validate at hvalid
    split at hvalid
    · rename_i e' haddresses
      cases hvalid
      rw [assemble, haddresses]
      rfl
    · rename_i known haddresses
      split at hvalid
      · rename_i l hfind
        cases hvalid
        have hmissing : (code.ops.filterMap Op.target?).find? (fun l => !known.contains l) =
            some l := targets_eq code ▸ hfind
        rw [assemble, haddresses]
        exact mapM_mapTarget_eq_error hmissing
      · cases hvalid

theorem assemble_eq_error_iff {code : Listing} {e : ListingError} :
    code.assemble = .error e ↔ code.validate = .error e := by
  rw [assemble_eq_map]
  cases code.validate <;> simp [Except.map]

/-! ### Where a label leads -/

/-- The instructions that are executed: all but the definitions of labels. -/
def proper (code : Listing) : List Instruction := code.filter fun i => !i.isLabel

/-- The only definition of the label comes after `a` instructions that are executed, and before the
rest of the listing. -/
def Defines (code : Listing) (l : Label) (a : Nat) (rest : Listing) : Prop :=
  ∃ before, code = before ++ .label l :: rest ∧ (proper before).length = a ∧
    .label l ∉ before ∧ .label l ∉ rest

/-- The only definition of the label comes after `a` instructions that are executed. -/
def Locates (code : Listing) (l : Label) (a : Nat) : Prop := ∃ rest, code.Defines l a rest

theorem proper_eq (code : Listing) : code.proper = code.ops.map .op := by
  induction code with
  | nil => rfl
  | cons i code ih =>
    cases i with
    | op o => simpa [proper, Instruction.isLabel] using ih
    | label m => simpa [proper, Instruction.isLabel] using ih

theorem length_proper (code : Listing) : code.proper.length = code.ops.length := by
  rw [proper_eq, List.length_map]

theorem address_append_label {before : Listing} {l : Label} (h : .label l ∉ before)
    (rest : Listing) : address l (before ++ .label l :: rest) = before.ops.length := by
  induction before with
  | nil => simp [address, ops]
  | cons i before ih =>
    rw [List.mem_cons, not_or] at h
    cases i with
    | op o => rw [List.cons_append, address, ih h.2, ops_cons_op, List.length_cons]
    | label m =>
      have hne : m ≠ l := fun heq => h.1 (heq ▸ rfl)
      rw [List.cons_append, address, if_neg hne, ih h.2, ops_cons_label]

theorem locates_address {code : Listing} (hnodup : code.labels.Nodup) {l : Label}
    (hl : l ∈ code.labels) : code.Locates l (code.address l) := by
  obtain ⟨before, rest, rfl⟩ := List.append_of_mem (mem_labels.1 hl)
  rw [labels_append, labels_cons_label, List.nodup_append, List.nodup_cons] at hnodup
  have hbefore : .label l ∉ before := fun hmem =>
    hnodup.2.2 l (mem_labels.2 hmem) l List.mem_cons_self rfl
  have hrest : .label l ∉ rest := fun hmem => hnodup.2.1.1 (mem_labels.2 hmem)
  refine ⟨rest, before, rfl, ?_, hbefore, hrest⟩
  rw [length_proper, address_append_label hbefore]

section

variable {code rest : Listing} {l : Label} {a : Nat} (h : code.Defines l a rest)
include h

theorem Defines.address_eq : code.address l = a := by
  obtain ⟨before, rfl, rfl, hbefore, -⟩ := h
  rw [address_append_label hbefore, length_proper]

/-- From the address of a label on, the operations are those after its definition. -/
theorem Defines.drop_ops : code.ops.drop a = rest.ops := by
  obtain ⟨before, rfl, rfl, -, -⟩ := h
  rw [length_proper, ops_append, List.drop_left, ops_cons_label]

theorem Defines.le_length : a ≤ code.ops.length := by
  obtain ⟨before, rfl, rfl, -, -⟩ := h
  rw [length_proper, ops_append, List.length_append]
  exact Nat.le_add_right _ _

end

end Listing

/-- The operation that an executed instruction is assembled to: the same one, with an address in
the place of its label. -/
inductive Instruction.Becomes (address : Label → Nat → Prop) : Instruction → Op Nat → Prop where
  | push (n : Int64) : Becomes address (.op (.push n)) (.push n)
  | pushTarget {l : Label} {a : Nat} (h : address l a) :
    Becomes address (.op (.pushTarget l)) (.pushTarget a)
  | beq {l : Label} {a : Nat} (h : address l a) : Becomes address (.op (.beq l)) (.beq a)
  | bleq {l : Label} {a : Nat} (h : address l a) : Becomes address (.op (.bleq l)) (.bleq a)
  | b {l : Label} {a : Nat} (h : address l a) : Becomes address (.op (.b l)) (.b a)
  | plain {o : Op Label} {o' : Op Nat} (h : (o, o') ∈ Op.plain.zip Op.plain) :
    Becomes address (.op o) o'

theorem Instruction.becomes_link {R : Label → Nat → Prop} {address : Label → Nat} {o : Op Label}
    (h : ∀ l, o.target? = some l → R l (address l)) : (op o).Becomes R (o.link address) := by
  cases o with
  | push n => exact .push n
  | pushTarget l => exact .pushTarget (h l rfl)
  | beq l => exact .beq (h l rfl)
  | bleq l => exact .bleq (h l rfl)
  | b l => exact .b (h l rfl)
  | _ => exact .plain (by simp [Op.plain, Op.link, Op.mapTarget])

namespace Listing

/-- The machine that executes `ops` goes from a reference to the label in the listing to the
address: by a branch that is taken, and by a jump to the word that is pushed for the label.  At the
end of the code there is nowhere to jump to. -/
structure Enters (code : Listing) (ops : Array (Op Nat)) (l : Label) (a : Nat) : Prop where
  b : ∀ {s : Machine.State}, code.proper[s.ip]? = some (.op (.b l)) → s.hp < s.sp →
    Machine.step ops s = .ok (.running { s with ip := a })
  beq : ∀ {s t : Machine.State} {left right : Int64},
    code.proper[s.ip]? = some (.op (.beq l)) → s.hp < s.sp →
    s.popTwo = .ok (left, right, t) → Machine.step ops s =
      .ok (.running { t with ip := if left = right then a else s.ip + 1 })
  bleq : ∀ {s t : Machine.State} {left right : Int64},
    code.proper[s.ip]? = some (.op (.bleq l)) → s.hp < s.sp →
    s.popTwo = .ok (left, right, t) → Machine.step ops s =
      .ok (.running { t with ip := if left ≤ right then a else s.ip + 1 })
  pushTarget : ∀ {s : Machine.State}, code.proper[s.ip]? = some (.op (.pushTarget l)) →
    s.hp < s.sp → Machine.step ops s =
      ({ s with ip := s.ip + 1 }.push (Int64.ofNat a)).map .running
  js : ∀ {s t : Machine.State}, ops.size < 2 ^ 63 → code.proper[s.ip]? = some (.op .js) →
    s.hp < s.sp → s.pop = .ok (Int64.ofNat a, t) → Machine.step ops s =
      if a < ops.size then .ok (.running { t with ip := a, ra := Int64.ofNat (s.ip + 1) })
      else .error (.badJump (Int64.ofNat a))

/-- The operations are the executed instructions of the listing, with addresses in the place of
labels, and a label stands for what comes after its definition. -/
structure Assembled (code : Listing) (ops : List (Op Nat)) : Prop where
  each : List.Forall₂ (Instruction.Becomes code.Locates) code.proper ops
  after : ∀ {l : Label} {a : Nat} {rest : Listing}, code.Defines l a rest →
    List.Forall₂ (Instruction.Becomes code.Locates) rest.proper (ops.drop a)
  enters : ∀ {l : Label} {a : Nat} {rest : Listing}, code.Defines l a rest →
    code.Enters ops.toArray l a

end Listing

/-! ### Assembled code on the machine -/

namespace Machine

theorem State.pop_at {s t : State} {v : Int64} (ip : Nat) (h : s.pop = .ok (v, t)) :
    { s with ip := ip }.pop = .ok (v, { t with ip := ip }) := by
  have hpeek : { s with ip := ip }.peek = s.peek := rfl
  unfold pop at h ⊢
  rw [hpeek]
  cases hs : s.peek with
  | error f =>
    rw [hs] at h
    cases h
  | ok w =>
    rw [hs] at h
    cases h
    rfl

theorem State.popTwo_at {s t : State} {left right : Int64} (ip : Nat)
    (h : s.popTwo = .ok (left, right, t)) :
    { s with ip := ip }.popTwo = .ok (left, right, { t with ip := ip }) := by
  unfold popTwo at h ⊢
  cases hs : s.pop with
  | error f =>
    rw [hs] at h
    cases h
  | ok r =>
    obtain ⟨v, u⟩ := r
    rw [hs] at h
    cases hu : u.pop with
    | error f =>
      simp only [bind, Except.bind, hu] at h
      cases h
    | ok r' =>
      simp only [bind, Except.bind, hu] at h
      cases h
      simp only [State.pop_at ip hs, State.pop_at ip hu, bind, Except.bind]
      rfl

theorem State.jump_ofNat (s : State) {size a : Nat} (ha : a < 2 ^ 63) :
    s.jump size (Int64.ofNat a) =
      if a < size then .ok { s with ip := a } else .error (.badJump (Int64.ofNat a)) := by
  simp [jump, Int64.toNatClampNeg_ofNat_of_lt ha, zero_le_ofNat ha]

end Machine

namespace Listing

section

variable {code rest : Listing} {l : Label} {a : Nat}

theorem step_linked (address : Label → Nat) {s : Machine.State} {o : Op Label}
    (ho : code.proper[s.ip]? = some (.op o)) (hne : o ≠ .halt) (hroom : s.hp < s.sp) :
    Machine.step (code.ops.map (Op.link address)).toArray s =
      (Machine.execute (code.ops.map (Op.link address)).toArray.size { s with ip := s.ip + 1 }
        (o.link address)).map .running := by
  have hmeet : ¬ s.sp ≤ s.hp := Int64.not_le.2 hroom
  have hget : (code.ops.map (Op.link address)).toArray[s.ip]? = some (o.link address) := by
    rw [proper_eq, List.getElem?_map] at ho
    obtain ⟨o', ho', heq⟩ := Option.map_eq_some_iff.1 ho
    cases heq
    rw [List.getElem?_toArray, List.getElem?_map, ho']
    rfl
  rw [Machine.step, if_neg hmeet, hget]
  cases o with
  | halt => exact absurd rfl hne
  | _ => rfl

theorem step_branch (address : Label → Nat) (related : Int64 → Int64 → Bool) {s t : Machine.State}
    {o : Op Label} {left right : Int64} (ho : code.proper[s.ip]? = some (.op o)) (hne : o ≠ .halt)
    (hroom : s.hp < s.sp)
    (hx : ∀ size (u : Machine.State), Machine.execute size u (o.link address) = u.branch related a)
    (hpop : s.popTwo = .ok (left, right, t)) :
    Machine.step (code.ops.map (Op.link address)).toArray s =
      .ok (.running { t with ip := if related left right then a else s.ip + 1 }) := by
  rw [step_linked address ho hne hroom, hx,
    Machine.State.branch_of_popTwo (Machine.State.popTwo_at _ hpop), Except.map]
  split <;> rfl

/-- A defined label is entered at its address. -/
theorem Defines.enters (h : code.Defines l a rest) :
    code.Enters (code.ops.map (Op.link fun l => code.address l)).toArray l a := by
  have hle := h.le_length
  obtain rfl := h.address_eq
  constructor
  case b =>
    intro s ho hroom
    rw [step_linked _ ho (by simp) hroom]
    rfl
  case beq =>
    intro s t left right ho hroom hpop
    rw [step_branch (a := code.address l) _ (fun v w => v == w) ho (by simp) hroom
      (fun _ _ => rfl) hpop]
    simp only [beq_iff_eq]
  case bleq =>
    intro s t left right ho hroom hpop
    rw [step_branch (a := code.address l) _ (fun v w => decide (v ≤ w)) ho (by simp) hroom
      (fun _ _ => rfl) hpop]
    simp only [decide_eq_true_iff]
  case pushTarget =>
    intro s ho hroom
    rw [step_linked _ ho (by simp) hroom]
    rfl
  case js =>
    intro s t hsize ho hroom hpop
    rw [List.size_toArray, List.length_map] at hsize
    have hlink : Op.link (fun l => code.address l) .js = .js := rfl
    rw [step_linked _ ho (by simp) hroom, hlink, Machine.execute, Machine.State.pop_at _ hpop]
    simp only [bind, Except.bind]
    rw [Machine.State.jump_ofNat _ (Nat.lt_of_le_of_lt hle hsize)]
    split <;> rfl

end

end Listing

/-! ### Faults of a run -/

namespace Machine

/-- Whatever goes wrong here, it is not a fault of the listing. -/
def Runs {α : Type} (x : Except Fault α) : Prop := ∀ e, x ≠ .error (.badListing e)

theorem runs_ok {α : Type} (a : α) : Runs (.ok a) := fun _ h => by cases h

theorem runs_error {α : Type} {f : Fault} (h : ∀ e, f ≠ .badListing e) :
    Runs (.error f : Except Fault α) := fun e he => h e (Except.error.inj he)

theorem Runs.bind {α β : Type} {x : Except Fault α} {f : α → Except Fault β} (hx : Runs x)
    (hf : ∀ a, Runs (f a)) : Runs (x >>= f) := by
  cases x with
  | error g => exact runs_error fun e h => hx e (congrArg Except.error h)
  | ok a => exact hf a

section

variable (s : State)

theorem runs_store (address value : Int64) : Runs (s.store address value) := by
  unfold State.store
  split
  · exact runs_ok _
  · exact runs_error (by simp)

theorem runs_load (address : Int64) : Runs (s.load address) := by
  unfold State.load
  split
  · exact runs_ok _
  · exact runs_error (by simp)

theorem runs_push (value : Int64) : Runs (s.push value) := by
  simp only [State.push]
  split
  · exact runs_error (by simp)
  · exact runs_store _ _ _

theorem runs_peek : Runs s.peek := by
  unfold State.peek
  split
  · exact runs_error (by simp)
  · exact runs_load _ _

theorem runs_pop : Runs s.pop := (runs_peek s).bind fun _ => runs_ok _

theorem runs_popTwo : Runs s.popTwo :=
  (runs_pop s).bind fun r => (runs_pop r.2).bind fun _ => runs_ok _

theorem runs_jump (size : Nat) (address : Int64) : Runs (s.jump size address) := by
  unfold State.jump
  split
  · exact runs_ok _
  · exact runs_error (by simp)

theorem runs_execute (size : Nat) (o : Op Nat) : Runs (execute size s o) := by
  cases o with
  | push | pushTarget | lfp | lra | ltm | lhp => exact runs_push _ _
  | b | cfp | halt => exact runs_ok _
  | pop | sfp | sra | stm | shp => exact (runs_pop s).bind fun _ => runs_ok _
  | print => exact (runs_peek s).bind fun _ => runs_ok _
  | add | sub | mult => exact (runs_popTwo s).bind fun _ => runs_push _ _
  | beq | bleq => exact (runs_popTwo s).bind fun _ => runs_ok _
  | div =>
    refine (runs_popTwo s).bind fun r => ?_
    dsimp only
    split
    · exact runs_error (by simp)
    · exact runs_push _ _
  | js => exact (runs_pop s).bind fun _ => runs_jump _ _ _
  | lw => exact (runs_pop s).bind fun r => (runs_load _ _).bind fun _ => runs_push _ _
  | sw => exact (runs_pop s).bind fun r => (runs_pop _).bind fun _ => runs_store _ _ _

theorem runs_step (code : Array (Op Nat)) : Runs (step code s) := by
  unfold step
  split
  · exact runs_error (by simp)
  · split
    · exact runs_error (by simp)
    · exact runs_ok _
    · exact (runs_execute _ _ _).bind fun _ => runs_ok _

theorem runs_runFrom (code : Array (Op Nat)) (limit budget : Nat) :
    Runs (runFrom code limit budget s) := by
  induction budget generalizing s with
  | zero => exact runs_error (by simp)
  | succ budget ih =>
    unfold runFrom
    split
    · rename_i f hf
      exact runs_error fun e he => runs_step s code e (hf.trans (congrArg Except.error he))
    · exact runs_ok _
    · exact ih _

end

end Machine

/-! ### Agreement -/

namespace Listing

theorem forall₂_becomes {code : Listing} (h : code.validate = .ok ()) {os : List (Op Label)}
    (hos : os ⊆ code.ops) : List.Forall₂ (Instruction.Becomes code.Locates) (os.map .op)
      (os.map (Op.link fun l => code.address l)) := by
  obtain ⟨hnodup, hdefined⟩ := of_validate h
  rw [List.forall₂_map_left_iff, List.forall₂_map_right_iff, List.forall₂_same]
  exact fun o ho => Instruction.becomes_link fun l hl =>
    locates_address hnodup (hdefined l (mem_targets_of_mem_ops (hos ho) hl))

theorem assembled_of_validate {code : Listing} (h : code.validate = .ok ()) :
    code.Assembled (code.ops.map (Op.link fun l => code.address l)) where
  each := by
    rw [proper_eq]
    exact forall₂_becomes h (List.Subset.refl _)
  after hl := by
    rw [proper_eq, ← List.map_drop, hl.drop_ops]
    refine forall₂_becomes h fun o ho => ?_
    rw [← hl.drop_ops] at ho
    exact List.mem_of_mem_drop ho
  enters hl := hl.enters

theorem run_eq_badListing_iff {code : Listing} (options : Machine.Options) {e : ListingError} :
    Machine.run options code = .error (.badListing e) ↔ code.assemble = .error e := by
  unfold Machine.run
  cases code.assemble with
  | error e' => simp
  | ok ops => simpa using Machine.runs_runFrom _ _ _ _ e

/-- **Validation decides assembly.**  A machine cannot be built from a listing if and only if the
listing is not valid, and the error is the same.  The operations of the machine for a valid listing
are its instructions in their order, and labels have become the numbers of instructions before their
only definitions, so that the machine goes on after the definition. -/
theorem validate_decides_assembly (code : Listing) :
    (∀ e, code.assemble = .error e ↔ code.validate = .error e) ∧
    (∀ (options : Machine.Options) (e : ListingError),
      Machine.run options code = .error (.badListing e) ↔ code.validate = .error e) ∧
    (code.validate = .ok () → ∃ ops, code.assemble = .ok ops ∧ code.Assembled ops ∧
      ∀ options : Machine.Options, Machine.run options code = Machine.runFrom ops.toArray
        options.maxSteps options.maxSteps (.initial options.memorySize)) := by
  refine ⟨fun e => assemble_eq_error_iff, fun options e => ?_, fun h => ?_⟩
  · rw [run_eq_badListing_iff, assemble_eq_error_iff]
  · have hops : code.assemble = .ok (code.ops.map (Op.link fun l => code.address l)) := by
      rw [assemble_eq_map, h]
      rfl
    refine ⟨_, hops, assembled_of_validate h, fun options => ?_⟩
    rw [Machine.run, hops]

/-- Two labels in a row, and one at the very end. -/
def detour : Listing :=
  [.op (.b "over"), .label "back", .op .halt, .label "over", .label "on", .op (.pushTarget "end"),
    .op .js, .label "end"]

/-- Operations that mention a label before one is defined twice. -/
def clash : Listing := [.op (.b "gone"), .label "back", .op .halt, .label "back"]

theorem validate_decides_assembly_detour : (∃ ops, detour.assemble = .ok ops ∧
      Machine.step ops.toArray (.initial 5) =
        .ok (.running { Machine.State.initial 5 with ip := 2 }) ∧
      List.Forall₂ (Instruction.Becomes detour.Locates) [.op (.pushTarget "end"), .op .js]
        (ops.drop 2) ∧
      Machine.step ops.toArray ⟨#[0, 4], 3, 1, 2, 0, 0, 0, #[]⟩ = .error (.badJump 4)) ∧
    Machine.run {} clash = .error (.badListing (.labelDefinedTwice "back")) := by
  obtain ⟨-, -, hvalid⟩ := validate_decides_assembly detour
  obtain ⟨-, hinvalid, -⟩ := validate_decides_assembly clash
  obtain ⟨ops, hops, hassembled, -⟩ := hvalid rfl
  have hover : detour.Defines "over" 2
      [.label "on", .op (.pushTarget "end"), .op .js, .label "end"] :=
    ⟨[.op (.b "over"), .label "back", .op .halt], rfl, rfl, by decide, by decide⟩
  have hend : detour.Defines "end" 4 [] := ⟨detour.dropLast, rfl, rfl, by decide, by decide⟩
  have hsize : ops.toArray.size = 4 := hassembled.each.length_eq.symm
  have hjump := (hassembled.enters hend).js (s := ⟨#[0, 4], 3, 1, 2, 0, 0, 0, #[]⟩) (by omega) rfl
    (by decide) rfl
  rw [if_neg (by omega)] at hjump
  exact ⟨⟨ops, hops, (hassembled.enters hover).b rfl (by decide), hassembled.after hover, hjump⟩,
    (hinvalid {} _).2 rfl⟩

end Listing

end ObjectLang
