import ObjectLang.Proofs.Machine.Segmented
import Mathlib.Algebra.Group.Nat.Defs

/-!
# The machine follows the segmented machine

`Corresponds size t s` says that a machine with `size` words of memory is in the state `s` that the
segmented state `t` describes: the heap lies at the start of memory and the stack at its end, upside
down.

The real machine either follows a step of the segmented one or is out of memory
(`Corresponds.step`).  There is nothing else that it can do, as long as the segmented machine is not
stuck.
-/

namespace ObjectLang

/-! ### Addresses as words -/

theorem ofNat_le_ofNat {a b : Nat} (ha : a < 2 ^ 63) (hb : b < 2 ^ 63) :
    Int64.ofNat a ≤ Int64.ofNat b ↔ a ≤ b := by
  rw [Int64.le_iff_toInt_le, Int64.toInt_ofNat_of_lt ha, Int64.toInt_ofNat_of_lt hb]
  omega

theorem ofNat_lt_ofNat {a b : Nat} (ha : a < 2 ^ 63) (hb : b < 2 ^ 63) :
    Int64.ofNat a < Int64.ofNat b ↔ a < b := by
  rw [Int64.lt_iff_toInt_lt, Int64.toInt_ofNat_of_lt ha, Int64.toInt_ofNat_of_lt hb]
  omega

theorem zero_le_ofNat {a : Nat} (ha : a < 2 ^ 63) : 0 ≤ Int64.ofNat a :=
  (ofNat_le_ofNat (by decide) ha).2 (Nat.zero_le a)

theorem ofInt_add_word (a : Int) (b : Int64) : Int64.ofInt a + b = Int64.ofInt (a + b.toInt) := by
  rw [Int64.ofInt_add, Int64.ofInt_toInt]

/-- Replace labels by their addresses. -/
def Op.link (address : Label → Nat) (o : Op Label) : Op Nat :=
  Id.run (o.mapTarget fun l => pure (address l))

namespace Segmented

/-- The word that a machine with `size` words of memory holds. -/
def Word.onMachine (size : Nat) : Word → Int64
  | .plain v => v
  | .cell d => Int64.ofInt (size - d)

/-- The segmented state describes the state of a machine with `size` words of memory. -/
structure Corresponds (size : Nat) (t : State) (s : Machine.State) : Prop where
  memory : s.memory.size = size
  room : t.stack.length + t.heap.length ≤ size
  sp : s.sp = Int64.ofNat (size - t.stack.length)
  hp : s.hp = t.hp
  stack : ∀ (i : Nat) (w : Word), t.stack.reverse[i]? = some w →
    s.memory[size - (i + 1)]? = some (w.onMachine size)
  heap : ∀ (i : Nat) (v : Int64), t.heap[i]? = some v → s.memory[i]? = some v
  pending : ∀ v, t.pending = some v → t.stack.length + t.heap.length < size →
    s.memory[t.heap.length]? = some v
  ip : s.ip = t.ip
  fp : s.fp = t.fp.onMachine size
  ra : s.ra = t.ra.onMachine size
  tm : s.tm = t.tm.onMachine size
  output : s.output.toList = t.output

/-- The stack is above the heap in a memory of `size` words. -/
def State.Fits (size : Nat) (t : State) : Prop := t.stack.length + t.heap.length < size

theorem corresponds_initial (size : Nat) :
    Corresponds size State.initial (Machine.State.initial size) where
  memory := by simp [Machine.State.initial]
  room := by simp [State.initial]
  sp := by simp [State.initial, Machine.State.initial]
  hp := rfl
  stack := by simp [State.initial]
  heap := by simp [State.initial]
  pending := by simp [State.initial]
  ip := rfl
  fp := by simp [State.initial, Machine.State.initial, Word.onMachine, Int64.ofInt_eq_ofNat]
  ra := rfl
  tm := rfl
  output := rfl

/-! ### Access to memory -/

theorem load_at {s : Machine.State} {a : Int64} {i : Nat} {v : Int64} (ha : 0 ≤ a)
    (hi : a.toNatClampNeg = i) (hv : s.memory[i]? = some v) : s.load a = .ok v := by
  have hlt : i < s.memory.size := (Array.getElem?_eq_some_iff.1 hv).1
  have hin : s.inMemory a = true := by
    simp only [Machine.State.inMemory, Bool.and_eq_true, decide_eq_true_eq, hi]
    exact ⟨ha, hlt⟩
  simp [Machine.State.load, hin, hi, hv]

namespace Corresponds

variable {size : Nat} {t : State} {s : Machine.State}

theorem load (hsize : size < 2 ^ 63) (h : Corresponds size t s) {a w : Word}
    (hr : t.read a = some w) : s.load (a.onMachine size) = .ok (w.onMachine size) := by
  cases a with
  | plain a =>
    simp only [State.read] at hr
    split at hr
    · rename_i ha
      obtain ⟨v, hv, rfl⟩ := Option.map_eq_some_iff.1 hr
      exact load_at ha rfl (h.heap _ _ hv)
    · cases hr
  | cell d =>
    simp only [State.read] at hr
    split at hr
    · rename_i hd
      have hlen : d.toNat - 1 < t.stack.length := by
        obtain ⟨hlt, -⟩ := List.getElem?_eq_some_iff.1 hr
        simpa using hlt
      have hroom := h.room
      have hm := h.stack _ _ hr
      have hnn : (0 : Int64) ≤ Int64.ofInt (size - d) := by
        rw [Int64.le_iff_toInt_le, Int64.toInt_ofInt_of_le (by omega) (by omega)]
        simp
        omega
      refine load_at hnn ?_ hm
      change (Int64.ofInt (size - d)).toNatClampNeg = _
      rw [Int64.toNatClampNeg_ofInt_of_le (by omega) (by omega)]
      omega
    · cases hr

theorem push (hsize : size < 2 ^ 63) (h : Corresponds size t s) (hfit : t.Fits size) (w : Word) :
    ∃ s', s.push (w.onMachine size) = .ok s' ∧ Corresponds size (t.push w) s' := by
  unfold State.Fits at hfit
  have hsp : s.sp - 1 = Int64.ofNat (size - (t.stack.length + 1)) := by
    rw [h.sp, ← Nat.sub_sub]
    exact (Int64.ofNat_sub _ 1 (by omega)).symm
  have hlt : ¬ s.sp - 1 < s.hp := by
    rw [hsp, h.hp, State.hp, ofNat_lt_ofNat (by omega) (by omega)]
    omega
  have hto : (Int64.ofNat (size - (t.stack.length + 1))).toNatClampNeg =
      size - (t.stack.length + 1) := Int64.toNatClampNeg_ofNat_of_lt (by omega)
  have hin : { s with sp := s.sp - 1 }.inMemory (s.sp - 1) = true := by
    simp only [Machine.State.inMemory, hsp, hto, h.memory, Bool.and_eq_true, decide_eq_true_eq]
    exact ⟨zero_le_ofNat (by omega), by omega⟩
  refine ⟨{ s with
    sp := s.sp - 1
    memory := s.memory.setIfInBounds (s.sp - 1).toNatClampNeg (w.onMachine size) }, ?_, ?_⟩
  · simp only [Machine.State.push, hlt, ↓reduceIte, Machine.State.store, hin]
  exact
    { memory := by simpa using h.memory
      room := by simp [State.push]; omega
      sp := hsp
      hp := h.hp
      stack := by
        intro i v hv
        simp only [State.push, List.reverse_cons, hsp, hto] at hv ⊢
        rw [Array.getElem?_setIfInBounds]
        rcases Nat.lt_or_ge i t.stack.length with hi | hi
        · rw [List.getElem?_append_left (by simpa using hi)] at hv
          rw [if_neg (by omega)]
          exact h.stack i v hv
        · rw [List.getElem?_append_right (by simpa using hi)] at hv
          simp only [List.length_reverse, List.getElem?_singleton] at hv
          split at hv
          · rename_i hi'
            obtain rfl : i = t.stack.length := by omega
            simp only [Option.some.injEq] at hv
            subst hv
            simp [h.memory]
            omega
          · cases hv
      heap := by
        intro i v hv
        have hi := (List.getElem?_eq_some_iff.1 hv).1
        simp only [hsp, hto, State.push] at hi ⊢
        rw [Array.getElem?_setIfInBounds, if_neg (by omega)]
        exact h.heap i v hv
      pending := by
        intro v hv hlt'
        simp only [State.push, List.length_cons, hsp, hto] at hv hlt' ⊢
        rw [Array.getElem?_setIfInBounds, if_neg (by omega)]
        exact h.pending v hv hfit
      ip := h.ip
      fp := h.fp
      ra := h.ra
      tm := h.tm
      output := h.output }

theorem pop (hsize : size < 2 ^ 63) (h : Corresponds size t s) (hfit : t.Fits size) {w : Word}
    {stack : List Word} (hst : t.stack = w :: stack) :
    ∃ s', s.pop = .ok (w.onMachine size, s') ∧ s.peek = .ok (w.onMachine size) ∧
      Corresponds size { t with stack := stack } s' := by
  unfold State.Fits at hfit
  have hlen : t.stack.length = stack.length + 1 := by simp [hst]
  have hbase : ¬ s.base ≤ s.sp := by
    rw [Machine.State.base, h.memory, h.sp, ofNat_le_ofNat hsize (by omega)]
    omega
  have hload : s.load s.sp = .ok (w.onMachine size) := by
    have htop : t.stack.reverse[stack.length]? = some w := by simp [hst]
    refine load_at ?_ ?_ (h.stack _ _ htop)
    · rw [h.sp]; exact zero_le_ofNat (by omega)
    · rw [h.sp, Int64.toNatClampNeg_ofNat_of_lt (by omega), hlen]
  have hpeek : s.peek = .ok (w.onMachine size) := by simp [Machine.State.peek, hbase, hload]
  refine ⟨{ s with sp := s.sp + 1 }, by rw [Machine.State.pop, hpeek]; rfl, hpeek, ?_⟩
  exact
    { memory := h.memory
      room := by simp only; omega
      sp := by
        change s.sp + 1 = _
        rw [h.sp, hlen, show size - stack.length = (size - (stack.length + 1)) + 1 by omega,
          Int64.ofNat_add]
        rfl
      hp := h.hp
      stack := by
        intro i v hv
        refine h.stack i v ?_
        have hi := (List.getElem?_eq_some_iff.1 hv).1
        simp only at hi hv
        rw [hst, List.reverse_cons, List.getElem?_append_left hi]
        exact hv
      heap := h.heap
      pending := fun v hv _ => h.pending v hv hfit
      ip := h.ip
      fp := h.fp
      ra := h.ra
      tm := h.tm
      output := h.output }

/-- A word stored just past the heap is pending. -/
theorem store (hsize : size < 2 ^ 63) (h : Corresponds size t s) (hfit : t.Fits size) (v : Int64) :
    ∃ s', s.store t.hp v = .ok s' ∧ Corresponds size { t with pending := some v } s' := by
  unfold State.Fits at hfit
  have hto : t.hp.toNatClampNeg = t.heap.length := Int64.toNatClampNeg_ofNat_of_lt (by omega)
  have hin : s.inMemory t.hp = true := by
    simp only [Machine.State.inMemory, hto, h.memory, Bool.and_eq_true, decide_eq_true_eq]
    exact ⟨zero_le_ofNat (by omega), by omega⟩
  refine ⟨_, by simp only [Machine.State.store, hin, ↓reduceIte]; rfl, ?_⟩
  exact
    { memory := by simpa using h.memory
      room := h.room
      sp := h.sp
      hp := h.hp
      stack := by
        intro i w hw
        have hi := (List.getElem?_eq_some_iff.1 hw).1
        simp only [List.length_reverse] at hi
        rw [hto, Array.getElem?_setIfInBounds, if_neg (by omega)]
        exact h.stack i w hw
      heap := by
        intro i w hw
        have hi : i < t.heap.length := (List.getElem?_eq_some_iff.1 hw).1
        rw [hto, Array.getElem?_setIfInBounds, if_neg (by omega)]
        exact h.heap i w hw
      pending := by
        intro w hw _
        simp only [Option.some.injEq] at hw
        subst hw
        rw [hto, Array.getElem?_setIfInBounds_self_of_lt (by rw [h.memory]; omega)]
      ip := h.ip
      fp := h.fp
      ra := h.ra
      tm := h.tm
      output := h.output }

/-- A pending word becomes part of the heap when the heap pointer passes it. -/
theorem growHeap (h : Corresponds size t s) (hfit : t.Fits size) {v : Int64}
    (hv : t.pending = some v) :
    Corresponds size { t with heap := t.heap ++ [v], pending := none } { s with hp := t.hp + 1 } :=
  { memory := h.memory
    room := by
      unfold State.Fits at hfit
      simp only [List.length_append, List.length_singleton]
      omega
    sp := h.sp
    hp := by
      change t.hp + 1 = Int64.ofNat (t.heap ++ [v]).length
      rw [List.length_append, Int64.ofNat_add]
      rfl
    stack := h.stack
    heap := by
      intro i w hw
      rcases Nat.lt_or_ge i t.heap.length with hi | hi
      · rw [List.getElem?_append_left hi] at hw
        exact h.heap i w hw
      · rw [List.getElem?_append_right hi, List.getElem?_singleton] at hw
        split at hw
        · obtain rfl : i = t.heap.length := by omega
          simp only [Option.some.injEq] at hw
          exact hw ▸ h.pending v hv hfit
        · cases hw
    pending := by simp
    ip := h.ip
    fp := h.fp
    ra := h.ra
    tm := h.tm
    output := h.output }

theorem onMachine_add {a b w : Word} (h : a.add b = some w) :
    a.onMachine size + b.onMachine size = w.onMachine size := by
  cases a <;> cases b <;> simp only [Word.add, Option.some.injEq, reduceCtorEq] at h
  · subst h; rfl
  · subst h
    simp only [Word.onMachine]
    rw [ofInt_add_word]
    congr 1
    omega

end Corresponds

/-! ### One step -/

/-- The outcome of an operation on the segmented machine describes that on the real one. -/
def Outcome.Agrees (size : Nat) : Outcome → Except Fault Machine.State → Prop
  | .next t, r => ∃ s, r = .ok s ∧ Corresponds size t s
  | .fault f, r => r = .error f
  | .halted, _ => False
  | .stuck, _ => True

section Execute

variable {size : Nat} {t : State} {s : Machine.State} (hsize : size < 2 ^ 63)
  (h : Corresponds size t s) (hfit : t.Fits size)
include hsize h hfit

theorem push_agrees (w : Word) :
    (Outcome.next (t.push w)).Agrees size (s.push (w.onMachine size)) :=
  h.push hsize hfit w

theorem popTwo_ok {a b : Word} {stack : List Word} (hst : t.stack = b :: a :: stack) :
    ∃ s', s.popTwo = .ok (a.onMachine size, b.onMachine size, s') ∧
      Corresponds size { t with stack := stack } s' := by
  unfold State.Fits at hfit
  have hlen : t.stack.length = stack.length + 2 := by simp [hst]
  obtain ⟨s₁, h₁, -, hc₁⟩ := h.pop hsize hfit hst
  have hfit₁ : State.Fits size { t with stack := a :: stack } := by
    simp only [State.Fits, List.length_cons]
    omega
  obtain ⟨s₂, h₂, -, hc₂⟩ := hc₁.pop hsize hfit₁ rfl
  exact ⟨s₂, by simp [Machine.State.popTwo, h₁, h₂, bind, Except.bind, pure, Except.pure], hc₂⟩

theorem popInto_agrees {f : Word → State → State} {g : Int64 → Machine.State → Machine.State}
    (hfg : ∀ w t s, Corresponds size t s → Corresponds size (f w t) (g (w.onMachine size) s)) :
    (t.popInto f).Agrees size (do let (v, s) ← s.pop; return g v s) := by
  unfold State.popInto
  split
  · rename_i w stack hst
    obtain ⟨s', hp, -, hc⟩ := h.pop hsize hfit hst
    exact ⟨g (w.onMachine size) s', by simp [hp, bind, Except.bind, pure, Except.pure],
      hfg w _ _ hc⟩
  · trivial

theorem binary_agrees (f : Int64 → Int64 → Int64) : (t.binary f).Agrees size (s.binary f) := by
  unfold State.binary
  split
  · rename_i b a stack hst
    obtain ⟨s', hp, hc⟩ := popTwo_ok hsize h hfit hst
    have hfit' : State.Fits size { t with stack := stack } := by
      unfold State.Fits at hfit ⊢
      simp only [hst, List.length_cons] at hfit ⊢
      omega
    obtain ⟨s'', hpush, hc'⟩ := hc.push hsize hfit' (.plain (f a b))
    refine ⟨s'', ?_, hc'⟩
    simp only [Machine.State.binary, hp, bind, Except.bind]
    exact hpush
  · trivial

theorem branch_agrees (related : Int64 → Int64 → Bool) (target : Nat) :
    (t.branch related target).Agrees size (s.branch related target) := by
  unfold State.branch
  split
  · rename_i b a stack hst
    obtain ⟨s', hp, hc⟩ := popTwo_ok hsize h hfit hst
    refine ⟨if related a b then { s' with ip := target } else s', ?_, ?_⟩
    · simp [Machine.State.branch, hp, bind, Except.bind, pure, Except.pure, Word.onMachine]
    · split
      · exact { hc with ip := rfl }
      · exact { hc with ip := hc.ip }
  · trivial

theorem jump_agrees (n : Nat) :
    (t.jump n).Agrees size
      (do let (target, s) ← s.pop; { s with ra := Int64.ofNat s.ip }.jump n target) := by
  unfold State.jump
  split
  · rename_i a stack hst
    obtain ⟨s', hp, -, hc⟩ := h.pop hsize hfit hst
    split
    · rename_i ha
      refine ⟨{ s' with ra := Int64.ofNat s'.ip, ip := a.toNatClampNeg }, ?_, ?_⟩
      · simp [hp, bind, Except.bind, Machine.State.jump, Word.onMachine, ha]
      · exact { hc with ip := rfl, ra := congrArg Int64.ofNat hc.ip }
    · rename_i ha
      simp [Outcome.Agrees, hp, bind, Except.bind, Machine.State.jump, Word.onMachine, ha]
  · trivial

theorem load_agrees :
    t.load.Agrees size (do let (address, s) ← s.pop; s.push (← s.load address)) := by
  unfold State.load
  split
  · rename_i a stack hst
    obtain ⟨s', hp, -, hc⟩ := h.pop hsize hfit hst
    have hfit' : State.Fits size { t with stack := stack } := by
      unfold State.Fits at hfit ⊢
      simp only [hst, List.length_cons] at hfit ⊢
      omega
    split
    · rename_i w hr
      obtain ⟨s'', hpush, hc'⟩ := hc.push hsize hfit' w
      refine ⟨s'', ?_, hc'⟩
      simp only [hp, bind, Except.bind, hc.load hsize hr]
      exact hpush
    · split
      · rename_i a _
        split
        · rename_i ha
          have hin : s'.inMemory a = false := by
            simp only [Machine.State.inMemory, Bool.and_eq_false_iff, decide_eq_false_iff_not]
            left
            rw [Int64.le_iff_toInt_le]
            rw [Int64.lt_iff_toInt_lt] at ha
            omega
          simp [Outcome.Agrees, hp, bind, Except.bind, Machine.State.load, Word.onMachine, hin]
        · trivial
      · trivial
  · trivial

theorem store_agrees :
    t.store.Agrees size
      (do let (address, s) ← s.pop; let (value, s) ← s.pop; s.store address value) := by
  unfold State.store
  split
  · rename_i a v stack hst
    split
    · rename_i ha
      have hlen : t.stack.length = stack.length + 2 := by simp [hst]
      unfold State.Fits at hfit
      obtain ⟨s₁, h₁, -, hc₁⟩ := h.pop hsize hfit hst
      have hfit₁ : State.Fits size { t with stack := .plain v :: stack } := by
        simp only [State.Fits, List.length_cons]
        omega
      obtain ⟨s₂, h₂, -, hc₂⟩ := hc₁.pop hsize hfit₁ rfl
      have hfit₂ : State.Fits size { t with stack := stack } := by
        simp only [State.Fits]
        omega
      obtain ⟨s₃, h₃, hc₃⟩ := hc₂.store hsize hfit₂ v
      refine ⟨s₃, ?_, hc₃⟩
      simp only [h₁, h₂, bind, Except.bind, Word.onMachine, ha]
      exact h₃
    · trivial
  · trivial

theorem growHeap_agrees :
    t.growHeap.Agrees size (do let (value, s) ← s.pop; return { s with hp := value }) := by
  unfold State.growHeap
  split
  · rename_i a stack v hst hv
    split
    · rename_i ha
      obtain ⟨s', hp, -, hc⟩ := h.pop hsize hfit hst
      have hfit' : State.Fits size { t with stack := stack } := by
        unfold State.Fits at hfit ⊢
        simp only [hst, List.length_cons] at hfit ⊢
        omega
      refine ⟨{ s' with hp := a }, by simp [hp, bind, Except.bind, pure, Except.pure,
        Word.onMachine], ?_⟩
      rw [ha]
      exact hc.growHeap hfit' hv
    · trivial
  · trivial

theorem execute_agrees (img : Image) {o : Op Label} (ho : o ≠ .halt) :
    (execute img t o).Agrees size (Machine.execute img.size s (o.link img.address)) := by
  cases o with
  | push v => exact push_agrees hsize h hfit (.plain v)
  | pushTarget l => exact push_agrees hsize h hfit (.plain (Int64.ofNat (img.address l)))
  | pop =>
    exact popInto_agrees hsize h hfit (f := fun _ t => t) (g := fun _ s => s) fun _ _ _ hc => hc
  | add =>
    simp only [execute]
    split
    · rename_i b a stack hst
      split
      · rename_i w hw
        obtain ⟨s', hp, hc⟩ := popTwo_ok hsize h hfit hst
        have hfit' : State.Fits size { t with stack := stack } := by
          unfold State.Fits at hfit ⊢
          simp only [hst, List.length_cons] at hfit ⊢
          omega
        obtain ⟨s'', hpush, hc'⟩ := hc.push hsize hfit' w
        refine ⟨s'', ?_, hc'⟩
        change s.binary (· + ·) = _
        simp only [Machine.State.binary, hp, bind, Except.bind, Corresponds.onMachine_add hw]
        exact hpush
      · trivial
    · trivial
  | sub => exact binary_agrees hsize h hfit _
  | mult => exact binary_agrees hsize h hfit _
  | div =>
    simp only [execute]
    split
    · rename_i b a stack hst
      obtain ⟨s', hp, hc⟩ := popTwo_ok hsize h hfit hst
      change Outcome.Agrees size _ (Machine.execute img.size s .div)
      rw [Machine.execute, hp]
      split
      · rename_i hb
        simp [Outcome.Agrees, bind, Except.bind, Word.onMachine, hb]
      · rename_i hb
        have hbin := binary_agrees hsize h hfit (· / ·)
        simp only [State.binary, hst, Outcome.Agrees, Machine.State.binary, hp, bind,
          Except.bind] at hbin ⊢
        simpa [Word.onMachine, hb] using hbin
    · trivial
  | beq l => exact branch_agrees hsize h hfit _ _
  | bleq l => exact branch_agrees hsize h hfit _ _
  | b l => exact ⟨_, rfl, { h with ip := rfl }⟩
  | js => exact jump_agrees hsize h hfit _
  | lw => exact load_agrees hsize h hfit
  | sw => exact store_agrees hsize h hfit
  | lfp =>
    change Outcome.Agrees size _ (s.push s.fp)
    exact h.fp ▸ push_agrees hsize h hfit t.fp
  | sfp =>
    exact popInto_agrees hsize h hfit (f := fun w t => { t with fp := w })
      (g := fun v s => { s with fp := v }) fun _ _ _ hc => { hc with fp := rfl }
  | cfp =>
    refine ⟨_, rfl, { h with fp := ?_ }⟩
    have hroom := h.room
    change s.sp = Int64.ofInt (size - (t.stack.length : Int))
    rw [h.sp, ← Int.ofNat_sub (by omega), Int64.ofInt_eq_ofNat]
  | lra =>
    change Outcome.Agrees size _ (s.push s.ra)
    exact h.ra ▸ push_agrees hsize h hfit t.ra
  | sra =>
    exact popInto_agrees hsize h hfit (f := fun w t => { t with ra := w })
      (g := fun v s => { s with ra := v }) fun _ _ _ hc => { hc with ra := rfl }
  | ltm =>
    change Outcome.Agrees size _ (s.push s.tm)
    exact h.tm ▸ push_agrees hsize h hfit t.tm
  | stm =>
    exact popInto_agrees hsize h hfit (f := fun w t => { t with tm := w })
      (g := fun v s => { s with tm := v }) fun _ _ _ hc => { hc with tm := rfl }
  | lhp =>
    change Outcome.Agrees size _ (s.push s.hp)
    exact h.hp ▸ push_agrees hsize h hfit (.plain t.hp)
  | shp => exact growHeap_agrees hsize h hfit
  | print =>
    simp only [execute]
    split
    · rename_i v stack hst
      obtain ⟨-, -, hp, -⟩ := h.pop hsize hfit hst
      refine ⟨{ s with output := s.output.push v }, ?_, { h with output := ?_ }⟩
      · change (do let value ← s.peek; return { s with output := s.output.push value }) = _
        rw [hp]
        rfl
      · simp [h.output]
    · trivial
  | halt => exact absurd rfl ho

theorem perform_agrees (img : Image) {p : Piece} {o : Op Label} (hp : p.erase size = .op o)
    (ho : o ≠ .halt) :
    (perform img t p).Agrees size (Machine.execute img.size s (o.link img.address)) := by
  cases p with
  | instr i =>
    obtain rfl : i = .op o := hp
    exact execute_agrees hsize h hfit img ho
  | memoryEnd =>
    simp only [Piece.erase, Instruction.op.injEq] at hp
    subst hp
    have hend : (Word.cell 0).onMachine size = Int64.ofNat size := by
      simp [Word.onMachine, Int64.ofInt_eq_ofNat]
    exact hend ▸ push_agrees hsize h hfit (.cell 0)
  | dispatch site =>
    simp only [Piece.erase, Instruction.op.injEq] at hp
    subst hp
    exact jump_agrees hsize h hfit _
  | construct cls =>
    simp only [Piece.erase, Instruction.op.injEq] at hp
    subst hp
    have hst := store_agrees hsize h hfit
    simp only [perform]
    cases hs : t.store with
    | next t' =>
      rw [hs] at hst
      obtain ⟨s', he, hc⟩ := hst
      exact ⟨s', he, { hc with memory := hc.memory }⟩
    | fault f | halted => rwa [hs] at hst
    | stuck => trivial

end Execute

/-- The code is that of an image, assembled for a machine with `size` words of memory. -/
structure Links (size : Nat) (img : Image) (code : Array (Op Nat)) : Prop where
  size_eq : code.size = img.size
  op : ∀ {i : Nat} {p : Piece}, img.piece i = some p →
    ∃ o, p.erase size = .op o ∧ code[i]? = some (o.link img.address)

theorem perform_halt {img : Image} {t : State} {p : Piece} {size : Nat}
    (hp : p.erase size = .op .halt) : perform img t p = .halted := by
  cases p with
  | instr i =>
    obtain rfl : i = .op .halt := hp
    rfl
  | memoryEnd | dispatch | construct => simp [Piece.erase] at hp

namespace Corresponds

variable {size : Nat} {img : Image} {code : Array (Op Nat)} {t : State} {s : Machine.State}

theorem full_iff (hsize : size < 2 ^ 63) (h : Corresponds size t s) :
    s.sp ≤ s.hp ↔ ¬ t.Fits size := by
  have hroom := h.room
  rw [h.sp, h.hp, State.hp, ofNat_le_ofNat (by omega) (by omega), State.Fits]
  omega

/-- A machine whose stack has met its heap makes no step. -/
theorem step_full (hsize : size < 2 ^ 63) (h : Corresponds size t s) (hfull : ¬ t.Fits size) :
    Machine.step code s = .error (.heapMeetsStack s.sp s.hp) :=
  if_pos ((h.full_iff hsize).2 hfull)

/-- Where there is room, the machine does what the segmented machine does. -/
theorem step (hsize : size < 2 ^ 63) (hl : Links size img code) (h : Corresponds size t s)
    (hfit : t.Fits size) :
    match Segmented.step img t with
    | .next t' => ∃ s', Machine.step code s = .ok (.running s') ∧ Corresponds size t' s'
    | .halted => Machine.step code s = .ok (.halted s)
    | .fault f => Machine.step code s = .error f
    | .stuck => True := by
  have hroom : ¬ s.sp ≤ s.hp := fun hf => (h.full_iff hsize).1 hf hfit
  unfold Segmented.step
  cases hp : img.piece t.ip with
  | none => trivial
  | some p =>
    obtain ⟨o, ho, hcode⟩ := hl.op hp
    rw [← h.ip] at hcode
    by_cases hhalt : o = .halt
    · subst hhalt
      simp only [perform_halt ho, Machine.step, hroom, ↓reduceIte, hcode]
      rfl
    · have hnext : Corresponds size { t with ip := t.ip + 1 } { s with ip := s.ip + 1 } :=
        { h with ip := congrArg (· + 1) h.ip }
      have hag := perform_agrees hsize hnext hfit img ho hhalt
      have hstep : Machine.step code s =
          (Machine.execute img.size { s with ip := s.ip + 1 } (o.link img.address)).map
            .running := by
        simp only [Machine.step, hroom, ↓reduceIte, hcode, ← hl.size_eq]
        cases o <;> first | rfl | exact absurd rfl hhalt
      rw [hstep]
      simp only
      generalize perform img _ p = r at hag
      cases r with
      | next t' =>
        obtain ⟨s', he, hc⟩ := hag
        exact ⟨s', by rw [he]; rfl, hc⟩
      | fault f =>
        change _ = Except.error f at hag
        rw [hag]
        rfl
      | halted => exact hag.elim
      | stuck => trivial

/-- The stack of the machine, word by word. -/
theorem stack_eq (hsize : size < 2 ^ 63) (h : Corresponds size t s) :
    s.stack = t.stack.reverse.map (Word.onMachine size) := by
  have hroom := h.room
  have hsp : s.sp.toNatClampNeg = size - t.stack.length := by
    rw [h.sp]
    exact Int64.toNatClampNeg_ofNat_of_lt (by omega)
  have hnonneg : 0 ≤ s.sp.toInt := by
    rw [h.sp, Int64.toInt_ofNat_of_lt (by omega)]
    omega
  refine List.ext_getElem? fun i => ?_
  rw [s.stack_of_nonneg hnonneg, hsp, List.getElem?_map]
  rcases Nat.lt_or_ge i t.stack.length with hi | hi
  · obtain ⟨w, hw⟩ : ∃ w, t.stack.reverse[i]? = some w :=
      ⟨_, List.getElem?_eq_getElem (by simpa using hi)⟩
    have hlen : (s.memory.toList.drop (size - t.stack.length)).length = t.stack.length := by
      simp only [List.length_drop, Array.length_toList, h.memory]
      omega
    rw [hw, List.getElem?_reverse (by rw [hlen]; exact hi), List.getElem?_drop, hlen]
    have hk : size - t.stack.length + (t.stack.length - 1 - i) = size - (i + 1) := by omega
    rw [hk, Array.getElem?_toList, h.stack i w hw]
    rfl
  · rw [List.getElem?_eq_none (l := t.stack.reverse) (by simpa using hi)]
    refine List.getElem?_eq_none ?_
    simp only [List.length_reverse, List.length_drop, Array.length_toList, h.memory]
    omega

end Corresponds

end Segmented

/-! ### Runs -/

namespace Machine

/-- A run of `n` steps. -/
inductive Takes (code : Array (Op Nat)) : Nat → State → State → Prop where
  | refl (s : State) : Takes code 0 s s
  | head {n : Nat} {s t u : State} (hs : step code s = .ok (.running t)) (hr : Takes code n t u) :
      Takes code (n + 1) s u

namespace Takes

variable {code : Array (Op Nat)} {m n : Nat} {s t u : State}

theorem trans (h₁ : Takes code m s t) (h₂ : Takes code n t u) : Takes code (m + n) s u := by
  induction h₁ with
  | refl => simpa using h₂
  | head hs _ ih =>
    rw [Nat.add_right_comm]
    exact .head hs (ih h₂)

/-- A longer run goes on where a shorter one ends. -/
theorem split (h₁ : Takes code m s t) (h₂ : Takes code (m + n) s u) : Takes code n t u := by
  induction h₁ with
  | refl => simpa using h₂
  | head hs _ ih =>
    rw [Nat.add_right_comm] at h₂
    cases h₂ with
    | head hs' hr =>
      rw [hs] at hs'
      cases hs'
      exact ih hr

theorem runFrom (h : Takes code n s t) (limit budget : Nat) :
    Machine.runFrom code limit (n + budget) s = Machine.runFrom code limit budget t := by
  induction h with
  | refl => simp
  | head hs _ ih =>
    rw [Nat.add_right_comm, Machine.runFrom, hs]
    exact ih

end Takes

end Machine

namespace Segmented

/-- The machine follows a run of the segmented machine to its end or is out of memory before. -/
theorem Steps.follow {size : Nat} {img : Image} {code : Array (Op Nat)} {Q : State → Prop}
    (hsize : size < 2 ^ 63) (hl : Links size img code) {n : Nat} {t t' : State}
    (hr : Steps img Q n t t') {s : Machine.State} (h : Corresponds size t s) :
    (∃ s', Machine.Takes code n s s' ∧ Corresponds size t' s') ∨
      ∃ k s', k < n ∧ Machine.Takes code k s s' ∧
        Machine.step code s' = .error (.heapMeetsStack s'.sp s'.hp) := by
  induction hr generalizing s with
  | refl t => exact .inl ⟨s, .refl s, h⟩
  | @head n t t₁ t' _ hs _ ih =>
    by_cases hfit : t.Fits size
    · have hstep := h.step hsize hl hfit
      rw [hs] at hstep
      obtain ⟨s₁, hs₁, h₁⟩ := hstep
      obtain ⟨s', hr', h'⟩ | ⟨k, s', hk, hr', hfull⟩ := ih h₁
      · exact .inl ⟨s', .head hs₁ hr', h'⟩
      · exact .inr ⟨k + 1, s', by omega, .head hs₁ hr', hfull⟩
    · exact .inr ⟨0, s, by omega, .refl s, h.step_full hsize hfit⟩

end Segmented

end ObjectLang
