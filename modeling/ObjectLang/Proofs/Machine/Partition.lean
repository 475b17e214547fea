import ObjectLang.Proofs.Machine.Stepping
import Mathlib.Data.List.Basic

/-!
# Following the machine through straight code

Straight code is followed from any state with a heap of its own, whatever its memory holds.  The
memory of such a state is a heap, some free words and a stack (`State.partitioned`), and what an
operation does is to move the borders between the three: a push takes the last free word, a pop
gives its word back, and the heap takes in the first free word.

`Leads` is a run through the next operations that ends as it should or is out of memory before,
and says when that can be.  There is one lemma for each operation, and runs are put together by
`Leads.bind`.
-/

namespace ObjectLang.Machine

namespace State

/-- The state with other registers `ip`, `hp` and `sp` and another memory, which is made of a heap,
free words and a stack, the top first. -/
def partitioned (s : State) (ip : Nat) (heap free stack : List Int64) : State :=
  { s with
    ip := ip
    memory := (heap ++ free ++ stack).toArray
    hp := Int64.ofNat heap.length
    sp := Int64.ofNat (heap.length + free.length) }

variable {s : State} {ip : Nat} {heap free stack : List Int64} {v x : Int64}

theorem size_partitioned :
    (s.partitioned ip heap free stack).memory.size = heap.length + free.length + stack.length := by
  simp [partitioned, Nat.add_assoc]

theorem ofNat_toNatClampNeg {a : Int64} (h : 0 ≤ a.toInt) : Int64.ofNat a.toNatClampNeg = a := by
  rw [← Int64.toInt_inj, ← Int64.ofInt_eq_ofNat]
  change (Int64.ofInt (a.toInt.toNat : Int)).toInt = a.toInt
  rw [Int.toNat_of_nonneg h, Int64.ofInt_toInt]

/-- Every state is one with a partitioned memory if its stack is above its heap. -/
theorem exists_eq_partitioned (hheap : 0 ≤ s.hp.toInt) (hfree : s.hp.toInt ≤ s.sp.toInt)
    (hstack : s.sp.toInt ≤ s.memory.size) : ∃ heap free,
      s = s.partitioned s.ip heap free s.stack.reverse ∧
      (heap.length : Int) = s.hp.toInt ∧ (heap.length + free.length : Int) = s.sp.toInt := by
  have hhp : (s.hp.toNatClampNeg : Int) = s.hp.toInt := Int.toNat_of_nonneg hheap
  have hsp : (s.sp.toNatClampNeg : Int) = s.sp.toInt := Int.toNat_of_nonneg (by omega)
  have hheap' : (s.memory.toList.take s.hp.toNatClampNeg).length = s.hp.toNatClampNeg := by
    rw [List.length_take, Array.length_toList]
    omega
  have hfree' : ((s.memory.toList.take s.sp.toNatClampNeg).drop s.hp.toNatClampNeg).length =
      s.sp.toNatClampNeg - s.hp.toNatClampNeg := by
    rw [List.length_drop, List.length_take, Array.length_toList]
    omega
  have hmemory : s.memory.toList.take s.hp.toNatClampNeg ++
      (s.memory.toList.take s.sp.toNatClampNeg).drop s.hp.toNatClampNeg ++ s.stack.reverse =
        s.memory.toList := by
    have hsplit : s.memory.toList.take s.hp.toNatClampNeg =
        (s.memory.toList.take s.sp.toNatClampNeg).take s.hp.toNatClampNeg := by
      rw [List.take_take, Nat.min_eq_left (by omega)]
    rw [hsplit, List.take_append_drop, s.stack_of_nonneg (by omega), List.reverse_reverse,
      List.take_append_drop]
  refine ⟨s.memory.toList.take s.hp.toNatClampNeg,
    (s.memory.toList.take s.sp.toNatClampNeg).drop s.hp.toNatClampNeg, ?_, by omega, by omega⟩
  rw [partitioned, hmemory, hheap', hfree', Nat.add_sub_cancel' (by omega),
    ofNat_toNatClampNeg hheap, ofNat_toNatClampNeg (by omega)]

section

variable (s : State) (ip : Nat) (hsize : heap.length + free.length + stack.length < 2 ^ 63)
include hsize

theorem toInt_hp_partitioned : (s.partitioned ip heap free stack).hp.toInt = heap.length :=
  Int64.toInt_ofNat_of_lt (by omega)

theorem toInt_sp_partitioned :
    (s.partitioned ip heap free stack).sp.toInt = heap.length + free.length := by
  rw [← Int.natCast_add]
  exact Int64.toInt_ofNat_of_lt (by omega)

theorem index_sp_partitioned :
    (s.partitioned ip heap free stack).sp.toNatClampNeg = heap.length + free.length :=
  Int64.toNatClampNeg_ofNat_of_lt (by omega)

end

/-- The last free word goes to the stack. -/
theorem push_partitioned (hsize : heap.length + (free ++ [x]).length + stack.length < 2 ^ 63)
    (v : Int64) : (s.partitioned ip heap (free ++ [x]) stack).push v =
      .ok (s.partitioned ip heap free (v :: stack)) := by
  have hsp := toInt_sp_partitioned s ip hsize
  have hhp := toInt_hp_partitioned s ip hsize
  have hindex := index_sp_partitioned s ip hsize
  have hwords : (s.partitioned ip heap (free ++ [x]) stack).memory.size =
      heap.length + (free ++ [x]).length + stack.length := size_partitioned
  have hlen : (free ++ [x]).length = free.length + 1 := by simp
  rw [push_eq_ok (by omega) (by omega) (by omega), pushed, hindex, hlen, ← Nat.add_assoc,
    Nat.add_sub_cancel]
  have hset : (heap ++ (free ++ [x]) ++ stack).set (heap.length + free.length) v =
      heap ++ free ++ v :: stack := by
    simp [List.set_append_right]
  have hless : Int64.ofNat (heap.length + (free ++ [x]).length) - 1 =
      Int64.ofNat (heap.length + free.length) := by
    rw [hlen, ← Nat.add_assoc, Int64.ofNat_add _ 1]
    exact Int64.add_sub_cancel _ _
  simp only [partitioned, hless, List.setIfInBounds_toArray, hset]

theorem peek_partitioned (hsize : heap.length + free.length + (v :: stack).length < 2 ^ 63) :
    (s.partitioned ip heap free (v :: stack)).peek = .ok v := by
  have hsp := toInt_sp_partitioned s ip hsize
  have hindex := index_sp_partitioned s ip hsize
  refine peek_eq_ok_iff.2 ⟨?_, by omega, ?_⟩
  · rw [Int64.lt_iff_toInt_lt, base, size_partitioned, Int64.toInt_ofNat_of_lt hsize, hsp,
      List.length_cons]
    omega
  · rw [hindex]
    simp [partitioned]

/-- The top of the stack becomes the last free word. -/
theorem pop_partitioned (hsize : heap.length + free.length + (v :: stack).length < 2 ^ 63) :
    (s.partitioned ip heap free (v :: stack)).pop =
      .ok (v, s.partitioned ip heap (free ++ [v]) stack) := by
  have hmore : Int64.ofNat (heap.length + free.length) + 1 =
      Int64.ofNat (heap.length + (free ++ [v]).length) := by
    rw [List.length_append, List.length_singleton, ← Nat.add_assoc, Int64.ofNat_add _ 1]
    rfl
  rw [pop_of_peek (peek_partitioned hsize)]
  simp only [partitioned, hmore, List.append_assoc, List.singleton_append]

/-- A word stored at the heap pointer replaces the first free word. -/
theorem store_partitioned (hsize : heap.length + (x :: free).length + stack.length < 2 ^ 63)
    (v : Int64) : (s.partitioned ip heap (x :: free) stack).store (Int64.ofNat heap.length) v =
      .ok (s.partitioned ip heap (v :: free) stack) := by
  have hindex : (Int64.ofNat heap.length).toNatClampNeg = heap.length :=
    Int64.toNatClampNeg_ofNat_of_lt (by omega)
  have hin : (s.partitioned ip heap (x :: free) stack).inMemory (Int64.ofNat heap.length) =
      true := by
    rw [inMemory_iff, size_partitioned, hindex, Int64.toInt_ofNat_of_lt (by omega),
      List.length_cons]
    omega
  rw [store, if_pos hin, hindex]
  simp [partitioned]

theorem load_partitioned {i : Nat} {a : Int64} (ha : a.toInt = heap.length + free.length + i)
    (hv : stack[i]? = some v) : (s.partitioned ip heap free stack).load a = .ok v := by
  have hindex : a.toNatClampNeg = (heap ++ free).length + i := by
    change a.toInt.toNat = _
    rw [ha, List.length_append]
    omega
  refine Segmented.load_at ?_ hindex ?_
  · rw [Int64.le_iff_toInt_le, ha, Int64.toInt_zero]
    omega
  · rw [partitioned, List.getElem?_toArray, List.getElem?_append_right (Nat.le_add_right _ _),
      Nat.add_sub_cancel_left, hv]

/-- The heap takes in the first free word. -/
theorem grow_partitioned :
    { s.partitioned ip heap (x :: free) stack with hp := Int64.ofNat (heap.length + 1) } =
      s.partitioned ip (heap ++ [x]) free stack := by
  simp [partitioned, Nat.add_assoc, Nat.add_comm 1]

end State

/-! ### Runs -/

/-- The operations stand in the code from an address on. -/
def Stands (code : Array (Op Nat)) : Nat → List (Op Nat) → Prop
  | _, [] => True
  | i, o :: os => code[i]? = some o ∧ Stands code (i + 1) os

/-- The machine executes the next `n` operations, one after the other, and is then in a state of the
given kind.  Or else it is out of memory on the way, which can only be if memory is short. -/
def Leads (code : Array (Op Nat)) (short : Prop) (n : Nat) (s : State) (Q : State → Prop) : Prop :=
  (∃ t, Executes code (List.range' s.ip n) s t ∧ Q t) ∨
    short ∧ ∃ k < n, ∃ t, Takes code k s t ∧ step code t = .error (.heapMeetsStack t.sp t.hp)

variable {code : Array (Op Nat)} {short : Prop} {m n : Nat} {s : State} {P Q : State → Prop}

theorem stands_append {i : Nat} {a b : List (Op Nat)} :
    Stands code i (a ++ b) ↔ Stands code i a ∧ Stands code (i + a.length) b := by
  induction a generalizing i with
  | nil => simp [Stands]
  | cons o a ih => simp [Stands, ih, and_assoc, Nat.add_assoc, Nat.add_comm 1]

theorem Leads.refl (h : Q s) : Leads code short 0 s Q := .inl ⟨s, .refl s, h⟩

theorem Leads.bind (h : Leads code short m s P)
    (hP : ∀ t, P t → t.ip = s.ip + m ∧ Leads code short n t Q) : Leads code short (m + n) s Q := by
  rcases h with ⟨t, hexecutes, ht⟩ | ⟨hshort, k, hk, t, htakes, hfull⟩
  · obtain ⟨hip, ⟨u, hrest, hu⟩ | ⟨hshort, k, hk, u, htakes, hfull⟩⟩ := hP t ht
    · have hall := hexecutes.trans hrest
      rw [hip, List.range'_append_1] at hall
      exact .inl ⟨u, hall, hu⟩
    · have hbefore := hexecutes.takes
      rw [List.length_range'] at hbefore
      exact .inr ⟨hshort, m + k, by omega, u, hbefore.trans htakes, hfull⟩
  · exact .inr ⟨hshort, k, by omega, t, htakes, hfull⟩

theorem Leads.mono (h : Leads code short n s P) (hPQ : ∀ t, P t → Q t) :
    Leads code short n s Q := by
  rcases h with ⟨t, hexecutes, ht⟩ | hfull
  · exact .inl ⟨t, hexecutes, hPQ t ht⟩
  · exact .inr hfull

section

variable {ip : Nat} {heap free stack : List Int64} {o : Op Nat} {a b v w x : Int64}

/-- One operation, on a memory of which at least one word is free. -/
theorem leads_of_execute (hsize : heap.length + free.length + stack.length < 2 ^ 63)
    (ho : code[ip]? = some o) (hne : o ≠ .halt) (hshort : free = [] → short)
    (hx : free ≠ [] → ∃ t, execute code.size (s.partitioned (ip + 1) heap free stack) o = .ok t ∧
      Q t) : Leads code short 1 (s.partitioned ip heap free stack) Q := by
  have hsp := State.toInt_sp_partitioned s ip hsize
  have hhp := State.toInt_hp_partitioned s ip hsize
  by_cases hfree : free = []
  · have hmeet : (s.partitioned ip heap free stack).sp ≤ (s.partitioned ip heap free stack).hp := by
      rw [Int64.le_iff_toInt_le, hsp, hhp, hfree]
      simp
    exact .inr ⟨hshort hfree, 0, Nat.one_pos, _, .refl _, if_pos hmeet⟩
  · obtain ⟨t, ht, hQ⟩ := hx hfree
    have hpos := List.length_pos_iff.2 hfree
    exact .inl ⟨t, .head (step_of_execute (by omega) ho hne ht) (.refl _), hQ⟩

theorem leads_push (hsize : heap.length + free.length + stack.length < 2 ^ 63)
    (ho : code[ip]? = some o) (hne : o ≠ .halt) (hshort : free = [] → short)
    (hx : execute code.size (s.partitioned (ip + 1) heap free stack) o =
      (s.partitioned (ip + 1) heap free stack).push w) :
    Leads code short 1 (s.partitioned ip heap free stack) fun t =>
      ∃ free' x, free = free' ++ [x] ∧ t = s.partitioned (ip + 1) heap free' (w :: stack) := by
  refine leads_of_execute hsize ho hne hshort fun hfree => ?_
  obtain ⟨free', x, rfl⟩ := free.eq_nil_or_concat'.resolve_left hfree
  exact ⟨_, hx.trans (State.push_partitioned hsize w), free', x, rfl, rfl⟩

/-- The sum of the two words on top replaces them. -/
theorem leads_add (hsize : heap.length + free.length + (b :: a :: stack).length < 2 ^ 63)
    (ho : code[ip]? = some .add) (hshort : free = [] → short) :
    Leads code short 1 (s.partitioned ip heap free (b :: a :: stack)) fun t =>
      free ≠ [] ∧ t = s.partitioned (ip + 1) heap (free ++ [b]) ((a + b) :: stack) := by
  refine leads_of_execute hsize ho (by simp) hshort fun hfree => ⟨_, ?_, hfree, rfl⟩
  have hsize' : heap.length + (free ++ [b]).length + (a :: stack).length < 2 ^ 63 := by
    simp only [List.length_append, List.length_cons, List.length_nil] at hsize ⊢
    omega
  have hsize'' : heap.length + (free ++ [b] ++ [a]).length + stack.length < 2 ^ 63 := by
    simp only [List.length_append, List.length_cons, List.length_nil] at hsize ⊢
    omega
  simp only [execute, State.binary, State.popTwo, State.pop_partitioned hsize,
    State.pop_partitioned hsize', bind, Except.bind, pure, Except.pure,
    State.push_partitioned hsize'']

/-- A word of the stack replaces its address. -/
theorem leads_load {i : Nat} (hsize : heap.length + free.length + (a :: stack).length < 2 ^ 63)
    (ho : code[ip]? = some .lw) (hshort : free = [] → short)
    (ha : a.toInt = heap.length + (free.length + 1) + i) (hv : stack[i]? = some v) :
    Leads code short 1 (s.partitioned ip heap free (a :: stack)) fun t =>
      t = s.partitioned (ip + 1) heap free (v :: stack) := by
  refine leads_of_execute hsize ho (by simp) hshort fun _ => ⟨_, ?_, rfl⟩
  have hsize' : heap.length + (free ++ [a]).length + stack.length < 2 ^ 63 := by
    simp only [List.length_append, List.length_cons, List.length_nil] at hsize ⊢
    omega
  have hload : (s.partitioned (ip + 1) heap (free ++ [a]) stack).load a = .ok v :=
    State.load_partitioned (by simpa using ha) hv
  simp only [execute, State.pop_partitioned hsize, hload, bind, Except.bind,
    State.push_partitioned hsize']

/-- The word below the heap pointer on the stack goes to the first free place. -/
theorem leads_store
    (hsize : heap.length + free.length + (Int64.ofNat heap.length :: v :: stack).length < 2 ^ 63)
    (ho : code[ip]? = some .sw) (hshort : free = [] → short) :
    Leads code short 1 (s.partitioned ip heap free (Int64.ofNat heap.length :: v :: stack)) fun t =>
      ∃ free', free'.length = free.length + 1 ∧
        t = s.partitioned (ip + 1) heap (v :: free') stack := by
  refine leads_of_execute hsize ho (by simp) hshort fun hfree => ?_
  obtain ⟨x, rest, rfl⟩ := List.exists_cons_of_ne_nil hfree
  have hsize' : heap.length + (x :: rest ++ [Int64.ofNat heap.length]).length +
      (v :: stack).length < 2 ^ 63 := by
    simp only [List.length_append, List.length_cons, List.length_nil] at hsize ⊢
    omega
  have hsize'' : heap.length + (x :: (rest ++ [Int64.ofNat heap.length] ++ [v])).length +
      stack.length < 2 ^ 63 := by
    simp only [List.length_append, List.length_cons, List.length_nil] at hsize ⊢
    omega
  refine ⟨_, ?_, rest ++ [Int64.ofNat heap.length] ++ [v], by simp, rfl⟩
  simp only [execute, State.pop_partitioned hsize, State.pop_partitioned hsize', bind, Except.bind]
  exact State.store_partitioned hsize'' v

/-- The heap pointer moves past the first free word. -/
theorem leads_grow
    (hsize : heap.length + (x :: free).length +
      (Int64.ofNat (heap.length + 1) :: stack).length < 2 ^ 63)
    (ho : code[ip]? = some .shp) :
    Leads code short 1
      (s.partitioned ip heap (x :: free) (Int64.ofNat (heap.length + 1) :: stack)) fun t =>
        ∃ free', free'.length = free.length + 1 ∧
          t = s.partitioned (ip + 1) (heap ++ [x]) free' stack := by
  refine leads_of_execute hsize ho (by simp) (by simp) fun _ => ?_
  refine ⟨_, ?_, free ++ [Int64.ofNat (heap.length + 1)], by simp, rfl⟩
  simp only [execute, State.pop_partitioned hsize, bind, Except.bind, pure, Except.pure]
  exact congrArg Except.ok State.grow_partitioned

end

end ObjectLang.Machine
