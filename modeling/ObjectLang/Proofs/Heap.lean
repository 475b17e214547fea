import ObjectLang.Proofs.Dispatch

/-!
# The heap is only ever added to

Stack and heap share one memory, and nothing but the tests of the machine keeps them apart.  For
compiled code these are enough (`Program.heap_of_compile`): at every point of every run

* the heap pointer is below the stack pointer when an operation starts;
* the heap pointer is never moved back, and a cell that it has passed keeps its word for the rest
  of the run, so that neither a push nor the construction of another object changes the fields of
  an object, the word that leads to its dispatch table, or the tables themselves;
* a word is only stored at the heap pointer, that is, in a cell that is not part of the heap yet.

A cell that has been stored to is not protected until the pointer has passed it.  If the stack grows
into it before that, then the run is out of memory at the next step.
-/

namespace ObjectLang

open Segmented (Corresponds Links Steps Word)

/-- The heap of the first state is part of the heap of the second, word by word. -/
structure Machine.State.HeapKept (s t : State) : Prop where
  hp : s.hp ≤ t.hp
  cell : ∀ address, 0 ≤ address → address < s.hp →
    ∃ v, s.load address = .ok v ∧ t.load address = .ok v

namespace Segmented.Corresponds

variable {size : Nat} {t u : State} {s s' : Machine.State}

/-- A cell of the heap is the one that the segmented heap has at the same address. -/
theorem heap_cell (hsize : size < 2 ^ 63) (h : Corresponds size t s) {address : Int64}
    (hnonneg : 0 ≤ address) (hlt : address < s.hp) :
    ∃ v, t.heap[address.toNatClampNeg]? = some v := by
  have hroom := h.room
  have hindex : address.toNatClampNeg < t.heap.length := by
    rw [h.hp, State.hp, Int64.lt_iff_toInt_lt, Int64.toInt_ofNat_of_lt (by omega)] at hlt
    rw [Int64.le_iff_toInt_le] at hnonneg
    simp only [Int64.toInt_zero] at hnonneg
    rw [Int64.toNatClampNeg]
    omega
  exact ⟨_, List.getElem?_eq_getElem hindex⟩

/-- What is kept of the segmented heap is kept of the machine's. -/
theorem heapKept (hsize : size < 2 ^ 63) (h : Corresponds size t s) (h' : Corresponds size u s')
    (hgrows : t.heap <+: u.heap) : s.HeapKept s' where
  hp := by
    have hroom := h.room
    have hroom' := h'.room
    rw [h.hp, h'.hp, State.hp, State.hp, ofNat_le_ofNat (by omega) (by omega)]
    exact hgrows.length_le
  cell address hnonneg hlt := by
    obtain ⟨v, hv⟩ := h.heap_cell hsize hnonneg hlt
    have hv' := getElem?_of_prefix hgrows hv
    exact ⟨v, load_at hnonneg rfl (h.heap _ _ hv), load_at hnonneg rfl (h'.heap _ _ hv')⟩

end Segmented.Corresponds

/-! ### Stores -/

/-- The segmented machine stores to the first cell after its heap. -/
theorem Segmented.stack_of_store {t u : State} (h : t.store = .next u) :
    ∃ v stack, t.stack = .plain t.hp :: .plain v :: stack := by
  unfold State.store at h
  split at h
  · rename_i a v stack hst
    split at h
    · rename_i ha
      exact ⟨v, stack, ha ▸ hst⟩
    · cases h
  · cases h

/-- The operation that is executed where the code has a store. -/
theorem Segmented.Links.store_of_op {size : Nat} {img : Image} {code : Array (Op Nat)}
    (hl : Links size img code) {t u : State} (hs : step img t = .next u)
    (hop : code[t.ip]? = some .sw) : ∃ v, { t with ip := t.ip + 1 }.store = .next v := by
  unfold step at hs
  cases hp : img.piece t.ip with
  | none => rw [hp] at hs; cases hs
  | some p =>
    rw [hp] at hs
    obtain ⟨o, ho, hcode⟩ := hl.op hp
    have hlink : o.link img.address = .sw := Option.some.inj (hcode.symm.trans hop)
    obtain rfl : o = .sw := by cases o <;> first | rfl | cases hlink
    obtain i | _ | site | cls := p
    case instr =>
      obtain rfl : i = .op .sw := ho
      exact ⟨u, hs⟩
    case memoryEnd => simp [Piece.erase] at ho
    case dispatch => simp [Piece.erase] at ho
    case construct =>
      simp only [perform] at hs
      cases hst : State.store { t with ip := t.ip + 1 } with
      | next v => exact ⟨v, rfl⟩
      | halted | fault | stuck => rw [hst] at hs; cases hs

namespace Program.Accepted

variable {p : Program} {nulls : Prop} (h : p.Accepted nulls True) {size : Nat}
  (hsize : size < 2 ^ 63) {code : Array (Op Nat)}
  (hl : Links size (Image.ofPieces p.bind.outline) code) {n : Nat} {s t : Machine.State}
  (hs : Machine.Takes code n (.initial size) s)
include h hsize hl hs

/-- The heap of a run is kept from every state to every later one. -/
theorem heapKept {k : Nat} (ht : Machine.Takes code k s t) : s.HeapKept t := by
  obtain ⟨u, hu, hcorr, -⟩ := h.visits hsize hl hs
  obtain ⟨v, hv, hcorr', -⟩ := h.visits hsize hl (hs.trans ht)
  obtain ⟨u', hu', hrest⟩ := hv.split
  obtain rfl := hu.unique hu'
  exact hcorr.heapKept hsize hcorr' hrest.grows.1

/-- A store that is executed finds the heap pointer on top of the stack. -/
theorem peek_of_store (ht : Machine.step code s = .ok (.running t))
    (hop : code[s.ip]? = some .sw) : s.peek = .ok s.hp := by
  have hnext : Machine.Takes code (n + 1) (.initial size) t := hs.trans (.head ht (.refl t))
  obtain ⟨v, hv, -, -⟩ := h.visits hsize hl hnext
  obtain ⟨u, hu, hrest⟩ := hv.split
  have hcorr := hu.corresponds hsize hl (Segmented.corresponds_initial size) hs
  cases hrest with
  | head _ hstep _ =>
    rw [hcorr.ip] at hop
    obtain ⟨w, hw⟩ := hl.store_of_op hstep hop
    obtain ⟨v, stack, hst⟩ := Segmented.stack_of_store hw
    have hfit : u.Fits size := by
      by_contra hfull
      rw [hcorr.step_full hsize hfull] at ht
      cases ht
    obtain ⟨-, -, hpeek, -⟩ := hcorr.pop hsize hfit hst
    rw [hpeek, hcorr.hp]
    rfl

end Program.Accepted

/-! ### Runs -/

namespace Machine

/-- Where an operation is executed, the stack is above the heap. -/
theorem hp_lt_sp_of_step {code : Array (Op Nat)} {s : State}
    (h : step code s ≠ .error (.heapMeetsStack s.sp s.hp)) : s.hp < s.sp := by
  by_contra hle
  exact h (if_pos (Int64.not_lt.1 hle))

/-- With a memory so large that its end is no positive word, a run ends at once. -/
theorem stops_initial (code : Array (Op Nat)) {size : Nat} (hlarge : 2 ^ 63 ≤ size)
    (hsize : size < 2 ^ 64) : ∃ f, Stops code (.initial size) (.error f) := by
  have hsp : (Int64.ofNat size).toInt = (size : Int) - 2 ^ 64 := by
    rw [Int64.toInt_ofNat', Int.bmod_def, show Int64.size = 2 ^ 64 from rfl]
    omega
  have hfull : (State.initial size).sp ≤ (State.initial size).hp := by
    change Int64.ofNat size ≤ 0
    rw [Int64.le_iff_toInt_le, hsp, Int64.toInt_zero]
    omega
  exact ⟨_, .fault (if_pos hfull)⟩

end Machine

namespace Program

/-- **The heap is kept.**  Let the annotations of a program mention neither methods nor class
shapes, and its code be shorter than words can count.  At every point of a run, unless the run is
out of memory there, the heap pointer is below the stack pointer; from there on the heap pointer is
never moved back, and the cells before it keep their words; and if the next operation is a store,
then it is one to the cell at the heap pointer. -/
theorem heap_of_compile {p : Program} {memorySize maxSteps : Nat} {c : Compiled}
    (hc : p.compile ⟨memorySize, ⟨memorySize, maxSteps⟩⟩ = .ok c)
    (hmemory : memorySize < 2 ^ 64) (hlen : c.code.length < 2 ^ 63)
    (hplain : ∀ ty ∈ p.annotations, ty.isPlain = true)
    {ops : List (Op Nat)} (hops : c.code.assemble = .ok ops)
    {n : Nat} {s : Machine.State} (hs : Machine.Takes ops.toArray n (.initial memorySize) s) :
    (Machine.step ops.toArray s ≠ .error (.heapMeetsStack s.sp s.hp) → s.hp < s.sp) ∧
      (∀ {k : Nat} {t : Machine.State}, Machine.Takes ops.toArray k s t → s.HeapKept t) ∧
      ∀ {t : Machine.State}, Machine.step ops.toArray s = .ok (.running t) →
        ops[s.ip]? = some .sw → s.peek = .ok s.hp := by
  refine ⟨Machine.hp_lt_sp_of_step, ?_⟩
  rcases Nat.lt_or_ge memorySize (2 ^ 63) with hsmall | hlarge
  · have hl := links_of_compile hc hops
    have haccepted := accepted_of_plain hc hlen hplain
    refine ⟨fun ht => haccepted.heapKept hsmall hl hs ht, fun ht hop => ?_⟩
    exact haccepted.peek_of_store hsmall hl hs ht (by simpa using hop)
  · -- there is no step at all, and no heap
    obtain ⟨r, hstops⟩ := Machine.stops_initial ops.toArray hlarge hmemory
    obtain ⟨-, rfl⟩ := hs.eq_of_stops hstops
    refine ⟨fun ht => ?_, fun ht => absurd ht hstops.not_running⟩
    obtain ⟨-, rfl⟩ := ht.eq_of_stops hstops
    exact ⟨Int64.le_refl _, fun a h₀ h₁ => absurd h₁ (Int64.not_lt.2 h₀)⟩

/-- The object at address `5` is complete after step 49, and the call that starts in step 74 leaves
it alone. -/
theorem heap_of_compile_savings : ∃ c ops s t,
    savings.compile ⟨60, ⟨60, 1000⟩⟩ = .ok c ∧ c.code.assemble = .ok ops ∧
      Machine.Takes ops.toArray 49 (.initial 60) s ∧ Machine.Takes ops.toArray 42 s t ∧
      s.hp = 6 ∧ s.load 5 = .ok 2 ∧ s.hp < s.sp ∧ s.hp ≤ t.hp ∧ t.load 5 = .ok 2 := by
  obtain ⟨c, hc, hlen, hsteps⟩ : ∃ c, savings.compile ⟨60, ⟨60, 1000⟩⟩ = .ok c ∧
      c.code.length < 2 ^ 63 ∧ c.code.assemble.toOption.any (fun ops => decide
        (((Machine.advance ops.toArray 49 (.initial 60)).any fun s => decide
          (s.hp = 6 ∧ s.load 5 = .ok 2 ∧
            ((Machine.step ops.toArray s).toOption.isSome ∧
              (Machine.advance ops.toArray 42 s).isSome))) = true)) = true :=
    exists_ok_of_decide (by decide +kernel)
  obtain ⟨ops, hops, hobject⟩ := exists_ok_of_decide hsteps
  obtain ⟨s, hs, hobject⟩ := (Option.any_eq_true _ _).1 hobject
  obtain ⟨hhp, hload, hstep, hlater⟩ := of_decide_eq_true hobject
  obtain ⟨t, ht⟩ := Option.isSome_iff_exists.1 hlater
  have htakes := Machine.takes_of_advance hs
  have hrest := Machine.takes_of_advance ht
  have hplain : ∀ ty ∈ savings.annotations, ty.isPlain = true := by decide
  obtain ⟨hbelow, hkept, -⟩ := heap_of_compile hc (by decide) hlen hplain hops htakes
  obtain ⟨v, hv, hv'⟩ := (hkept hrest).cell 5 (by decide) (by rw [hhp]; decide)
  cases hload.symm.trans hv
  refine ⟨c, ops, s, t, hc, hops, htakes, hrest, hhp, hload, hbelow ?_, (hkept hrest).hp, hv'⟩
  intro hfull
  rw [hfull] at hstep
  cases hstep

end Program

end ObjectLang
