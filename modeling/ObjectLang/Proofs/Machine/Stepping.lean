import ObjectLang.Proofs.Machine.Bounds

/-!
# Following the machine through a test

The machine followed operation by operation from any state, without a description of what is in its
memory.  `Executes` is a run (`Executes.takes`) with the addresses of the operations that it
executes.

Code that compares the top of the stack with a word and branches (`executes_test`) leaves the stack
without its top; an answer is pushed afterwards (`executes_answer`).  All of this takes place
between the top of the stack and the heap pointer (`State.KeepsRest`), and needs one word there and
another one to go on (`State.HasRoom`).  Without them the run is out of memory
(`outOfMemory_of_push`).
-/

namespace ObjectLang.Machine

/-- A run that executes the operations at the given addresses, one after the other. -/
inductive Executes (code : Array (Op Nat)) : List Nat → State → State → Prop where
  | refl (s : State) : Executes code [] s s
  | head {as : List Nat} {s t u : State} (hs : step code s = .ok (.running t))
    (hr : Executes code as t u) : Executes code (s.ip :: as) s u

variable {code : Array (Op Nat)} {s t u : State} {v w : Int64}

theorem Executes.takes {as : List Nat} (h : Executes code as s t) : Takes code as.length s t := by
  induction h with
  | refl s => exact .refl s
  | head hs _ ih => exact .head hs ih

theorem Executes.trans {as bs : List Nat} (h₁ : Executes code as s t) (h₂ : Executes code bs t u) :
    Executes code (as ++ bs) s u := by
  induction h₁ with
  | refl => exact h₂
  | head hs _ ih => exact .head hs (ih h₂)

/-! ### One step -/

theorem step_of_execute {o : Op Nat} (hroom : s.hp.toInt < s.sp.toInt) (ho : code[s.ip]? = some o)
    (hne : o ≠ .halt) (hx : execute code.size { s with ip := s.ip + 1 } o = .ok t) :
    step code s = .ok (.running t) := by
  have hmeet : ¬ s.sp ≤ s.hp := by
    rw [Int64.le_iff_toInt_le]
    omega
  rw [step, if_neg hmeet, ho]
  cases o with
  | halt => exact absurd rfl hne
  | _ => simp [hx, Except.map]

theorem executes_jump {target : Nat} (hroom : s.hp.toInt < s.sp.toInt)
    (h : code[s.ip]? = some (.b target)) : Executes code [s.ip] s { s with ip := target } :=
  .head (step_of_execute hroom h (by simp) rfl) (.refl _)

namespace State

theorem peek_eq_ok_iff : s.peek = .ok v ↔
    s.sp < s.base ∧ 0 ≤ s.sp.toInt ∧ s.memory[s.sp.toNatClampNeg]? = some v := by
  have hbelow : s.sp < s.base ↔ ¬ s.base ≤ s.sp := Int64.not_le.symm
  rw [hbelow]
  unfold peek load
  split
  · simp [*]
  · split
    · rename_i hin
      obtain ⟨hnonneg, hlt⟩ := inMemory_iff.1 hin
      simp [*]
    · rename_i hin
      simp only [inMemory_iff, not_and] at hin
      simp only [reduceCtorEq, false_iff, not_and]
      intro _ hnonneg hv
      exact hin hnonneg (Array.getElem?_eq_some_iff.1 hv).1

theorem pop_of_peek (h : s.peek = .ok v) : s.pop = .ok (v, { s with sp := s.sp + 1 }) := by
  rw [pop, h]
  rfl

/-- The state with a word pushed. -/
def pushed (s : State) (w : Int64) : State :=
  { s with sp := s.sp - 1, memory := s.memory.setIfInBounds (s.sp.toNatClampNeg - 1) w }

@[simp] theorem base_pushed (w : Int64) : (s.pushed w).base = s.base := by simp [base, pushed]

theorem toNatClampNeg_sub_one {a : Int64} (h : 0 < a.toInt) :
    (a - 1).toNatClampNeg = a.toNatClampNeg - 1 := by
  have ha : (a - 1).toInt = a.toInt - 1 := toInt_sub_one (by omega)
  change (a - 1).toInt.toNat = a.toInt.toNat - 1
  omega

/-- A push with a word of memory below the stack that is not the heap's. -/
theorem push_eq_ok (hroom : s.hp.toInt < s.sp.toInt) (hpos : 0 < s.sp.toInt)
    (hsize : s.sp.toInt ≤ s.memory.size) (w : Int64) : s.push w = .ok (s.pushed w) := by
  have hsp : (s.sp - 1).toInt = s.sp.toInt - 1 := toInt_sub_one (by omega)
  have hmeet : ¬ s.sp - 1 < s.hp := by
    rw [Int64.lt_iff_toInt_lt]
    omega
  have hin : { s with sp := s.sp - 1 }.inMemory (s.sp - 1) = true := by
    refine inMemory_iff.2 ⟨by omega, ?_⟩
    change (s.sp - 1).toInt.toNat < s.memory.size
    omega
  rw [push, if_neg hmeet, store, if_pos hin, toNatClampNeg_sub_one hpos]
  rfl

theorem push_eq_error (hsp : s.sp = 0) (hheap : s.hp.toInt < 0) (w : Int64) :
    s.push w = .error (.badAddress (-1)) := by
  have hbelow : s.sp - 1 = -1 := by
    rw [hsp]
    rfl
  have hmeet : ¬ (-1 : Int64) < s.hp := by
    rw [Int64.lt_iff_toInt_lt]
    change ¬ -1 < s.hp.toInt
    omega
  simp only [push, hbelow, if_neg hmeet]
  rfl

/-- A word can be pushed and the machine go on after it: there is a word of memory below the stack,
and the heap pointer is below that. -/
def HasRoom (s : State) : Prop := 0 < s.sp.toInt ∧ s.hp.toInt < s.sp.toInt - 1

instance (s : State) : Decidable s.HasRoom :=
  inferInstanceAs (Decidable (0 < s.sp.toInt ∧ s.hp.toInt < s.sp.toInt - 1))

section

variable (hv : s.peek = .ok v)
include hv

theorem index_lt_size : s.sp.toNatClampNeg < s.memory.size :=
  (Array.getElem?_eq_some_iff.1 (peek_eq_ok_iff.1 hv).2.2).1

theorem sp_lt_size : s.sp.toInt < s.memory.size := by
  have hnonneg := (peek_eq_ok_iff.1 hv).2.1
  have hindex : s.sp.toInt.toNat < s.memory.size := index_lt_size hv
  omega

theorem toInt_sp_add_one : (s.sp + 1).toInt = s.sp.toInt + 1 :=
  toInt_add_one (peek_eq_ok_iff.1 hv).1

variable (hpos : 0 < s.sp.toInt) (w : Int64)
include hpos

/-- What was pushed is on top. -/
theorem peek_pushed : (s.pushed w).peek = .ok w := by
  have hbase := (peek_eq_ok_iff.1 hv).1
  have hindex := index_lt_size hv
  have hsp : (s.sp - 1).toInt = s.sp.toInt - 1 := toInt_sub_one (by omega)
  refine peek_eq_ok_iff.2 ⟨?_, ?_, ?_⟩
  · rw [Int64.lt_iff_toInt_lt] at hbase
    rw [base_pushed, Int64.lt_iff_toInt_lt]
    change (s.sp - 1).toInt < s.base.toInt
    omega
  · change 0 ≤ (s.sp - 1).toInt
    omega
  · change (s.memory.setIfInBounds _ w)[(s.sp - 1).toNatClampNeg]? = some w
    rw [toNatClampNeg_sub_one hpos, Array.getElem?_setIfInBounds_self_of_lt (by omega)]

/-- What was there before the push is still there. -/
theorem peek_below_pushed : { s.pushed w with sp := s.sp }.peek = .ok v := by
  obtain ⟨hbase, hnonneg, hword⟩ := peek_eq_ok_iff.1 hv
  refine peek_eq_ok_iff.2 ⟨(base_pushed w).symm ▸ hbase, hnonneg, ?_⟩
  have hne : s.sp.toNatClampNeg - 1 ≠ s.sp.toNatClampNeg := by
    change s.sp.toInt.toNat - 1 ≠ s.sp.toInt.toNat
    omega
  change (s.memory.setIfInBounds _ w)[s.sp.toNatClampNeg]? = some v
  rw [Array.getElem?_setIfInBounds_ne hne, hword]

theorem popTwo_pushed :
    (s.pushed w).popTwo = .ok (v, w, { s.pushed w with sp := s.sp + 1 }) := by
  have hback : s.sp - 1 + 1 = s.sp := Int64.sub_add_cancel _ _
  have hpop := pop_of_peek (peek_pushed hv hpos w)
  change (s.pushed w).pop = .ok (w, { s.pushed w with sp := s.sp - 1 + 1 }) at hpop
  rw [hback] at hpop
  simp only [popTwo, hpop, pop_of_peek (peek_below_pushed hv hpos w), bind, Except.bind, pure,
    Except.pure]

end

theorem branch_of_popTwo {related : Int64 → Int64 → Bool} {target : Nat}
    (h : s.popTwo = .ok (v, w, t)) :
    s.branch related target = .ok (if related v w then { t with ip := target } else t) := by
  simp only [branch, h, bind, Except.bind, pure, Except.pure]

end State

/-- The next step fails because memory is used up: the stack has met the heap, or takes up all of
the memory. -/
def OutOfMemory (code : Array (Op Nat)) (s : State) : Prop :=
  step code s = .error (.heapMeetsStack s.sp s.hp) ∨
    s.sp = 0 ∧ step code s = .error (.badAddress (-1))

theorem outOfMemory_of_le (h : s.sp ≤ s.hp) : OutOfMemory code s := by
  left
  rw [step, if_pos h]

/-! ### A test of the top -/

namespace State

/-- Nothing is different but the next operation, the stack pointer, and memory from the top of the
stack down to the heap pointer. -/
structure KeepsRest (s t : State) : Prop where
  output : t.output = s.output
  fp : t.fp = s.fp
  hp : t.hp = s.hp
  memory : ∀ i : Nat, s.sp.toInt < i ∨ (i : Int) < s.hp.toInt → t.memory[i]? = s.memory[i]?

theorem KeepsRest.refl (s : State) : s.KeepsRest s := ⟨rfl, rfl, rfl, fun _ _ => rfl⟩

theorem KeepsRest.set {k : Nat} (h : s.KeepsRest t) (hheap : s.hp.toInt ≤ k)
    (hstack : (k : Int) ≤ s.sp.toInt) (w sp : Int64) (ip : Nat) : s.KeepsRest
      { t with ip := ip, sp := sp, memory := t.memory.setIfInBounds k w } where
  output := h.output
  fp := h.fp
  hp := h.hp
  memory i hi := by
    rw [← h.memory i hi]
    exact Array.getElem?_setIfInBounds_ne (by omega)

/-- The state after a test of its top: the word that the top was compared with is still in memory,
just below. -/
def tested (s : State) (c : Int64) (ip : Nat) : State :=
  { s.pushed c with ip := ip, sp := s.sp + 1 }

/-- The state with another word in the place of its top, after a test of it. -/
def answered (s : State) (c x : Int64) (ip : Nat) : State :=
  { s.pushed c with
    ip := ip
    sp := s.sp
    memory := (s.pushed c).memory.setIfInBounds s.sp.toNatClampNeg x }

end State

section

variable {c x : Int64} {target ip : Nat} (hv : s.peek = .ok v) (hroom : s.HasRoom)
include hv

theorem peek_answered : (s.answered c x ip).peek = .ok x := by
  obtain ⟨hbase, hnonneg, -⟩ := State.peek_eq_ok_iff.1 hv
  have hindex := State.index_lt_size hv
  refine State.peek_eq_ok_iff.2 ⟨?_, hnonneg, ?_⟩
  · simpa [State.base, State.answered, State.pushed] using hbase
  · exact Array.getElem?_setIfInBounds_self_of_lt (by simpa [State.pushed] using hindex)

omit hv
include hroom

theorem keepsRest_tested : s.KeepsRest (s.tested c ip) := by
  obtain ⟨hpos, hlt⟩ := hroom
  have hindex : ((s.sp.toNatClampNeg - 1 : Nat) : Int) = s.sp.toInt - 1 := by
    change ((s.sp.toInt.toNat - 1 : Nat) : Int) = s.sp.toInt - 1
    omega
  exact (State.KeepsRest.refl s).set (by omega) (by omega) c (s.sp + 1) ip

theorem keepsRest_answered : s.KeepsRest (s.answered c x ip) := by
  have hindex : (s.sp.toNatClampNeg : Int) = s.sp.toInt :=
    Int.toNat_of_nonneg (Int.le_of_lt hroom.1)
  have hlt := hroom.2
  have htested : s.KeepsRest (s.tested c ip) := keepsRest_tested hroom
  exact htested.set (by omega) (by omega) x s.sp ip

include hv

/-- Compare the top of the stack with a word, and go to the target if they are the same. -/
theorem executes_test (h₀ : code[s.ip]? = some (.push c))
    (h₁ : code[s.ip + 1]? = some (.beq target)) :
    Executes code [s.ip, s.ip + 1] s (s.tested c (if v = c then target else s.ip + 2)) := by
  obtain ⟨hpos, hlt⟩ := hroom
  have hmeet : s.hp.toInt < s.sp.toInt := by omega
  have hsp : (s.sp - 1).toInt = s.sp.toInt - 1 := toInt_sub_one (by omega)
  have hsize := Int.le_of_lt (State.sp_lt_size hv)
  have hpush : step code s = .ok (.running ({ s with ip := s.ip + 1 }.pushed c)) :=
    step_of_execute hmeet h₀ (by simp)
      (State.push_eq_ok (s := { s with ip := s.ip + 1 }) hmeet hpos hsize c)
  have hbranch : step code ({ s with ip := s.ip + 1 }.pushed c) =
      .ok (.running (s.tested c (if v = c then target else s.ip + 2))) := by
    have hpop := State.popTwo_pushed (s := { s with ip := s.ip + 2 }) hv hpos c
    refine step_of_execute (o := .beq target) (hsp ▸ hlt) h₁ (by simp) ?_
    refine (State.branch_of_popTwo hpop).trans ?_
    by_cases heq : v = c <;> simp [heq, State.tested, State.pushed]
  exact .head hpush (.head hbranch (.refl _))

/-- Push an answer after the test. -/
theorem executes_answer (h : code[ip]? = some (.push x)) :
    Executes code [ip] (s.tested c ip) (s.answered c x (ip + 1)) := by
  obtain ⟨hpos, hlt⟩ := hroom
  have hsp := State.toInt_sp_add_one hv
  have hsize := State.sp_lt_size hv
  have hindex : (s.sp + 1).toNatClampNeg - 1 = s.sp.toNatClampNeg := by
    change (s.sp + 1).toInt.toNat - 1 = s.sp.toInt.toNat
    omega
  have hsize' : (s.tested c (ip + 1)).sp.toInt ≤ (s.tested c (ip + 1)).memory.size := by
    change (s.sp + 1).toInt ≤ (s.memory.setIfInBounds _ c).size
    rw [Array.size_setIfInBounds]
    omega
  have hmeet : (s.tested c ip).hp.toInt < (s.tested c ip).sp.toInt := by
    change s.hp.toInt < (s.sp + 1).toInt
    omega
  have hpos' : 0 < (s.tested c (ip + 1)).sp.toInt := by
    change 0 < (s.sp + 1).toInt
    omega
  have hpush : (s.tested c (ip + 1)).push x = .ok (s.answered c x (ip + 1)) := by
    rw [State.push_eq_ok (s := s.tested c (ip + 1)) hmeet hpos' hsize']
    simp only [State.tested, State.answered, State.pushed, hindex, Int64.add_sub_cancel]
  exact .head (step_of_execute hmeet h (by simp) hpush) (.refl _)

/-- Go on elsewhere after the test. -/
theorem executes_skip (h : code[ip]? = some (.b target)) :
    Executes code [ip] (s.tested c ip) (s.tested c target) := by
  have hmeet : s.hp.toInt < (s.sp + 1).toInt := by
    rw [State.toInt_sp_add_one hv]
    have hlt := hroom.2
    omega
  exact executes_jump (s := s.tested c ip) hmeet h

omit hv in
theorem executes_leave (h : code[ip]? = some (.b target)) :
    Executes code [ip] (s.answered c x ip) (s.answered c x target) := by
  have hmeet : s.hp.toInt < s.sp.toInt := by
    have hlt := hroom.2
    omega
  exact executes_jump (s := s.answered c x ip) hmeet h

omit hroom
include hv

/-- Without room there is a fault, at the latest in the step after the push. -/
theorem outOfMemory_of_push (hroom : ¬ s.HasRoom) (h : code[s.ip]? = some (.push c)) :
    ∃ n ≤ 1, ∃ t, Takes code n s t ∧ OutOfMemory code t := by
  have hnonneg := (State.peek_eq_ok_iff.1 hv).2.1
  by_cases hmeet : s.sp ≤ s.hp
  · exact ⟨0, Nat.zero_le 1, s, .refl s, outOfMemory_of_le hmeet⟩
  · have hlt : s.hp.toInt < s.sp.toInt := by
      rw [Int64.le_iff_toInt_le] at hmeet
      omega
    by_cases hpos : 0 < s.sp.toInt
    · -- the push succeeds, but then the stack has met the heap
      have hpush := State.push_eq_ok (s := { s with ip := s.ip + 1 }) hlt hpos
        (Int.le_of_lt (State.sp_lt_size hv)) c
      have hsp : (s.sp - 1).toInt = s.sp.toInt - 1 := toInt_sub_one (by omega)
      have hmeet' : s.sp - 1 ≤ s.hp := by
        rw [Int64.le_iff_toInt_le]
        unfold State.HasRoom at hroom
        omega
      exact ⟨1, Nat.le_refl 1, _, .head (step_of_execute hlt h (by simp) hpush) (.refl _),
        outOfMemory_of_le hmeet'⟩
    · have hzero : s.sp = 0 := Int64.toInt_inj.1 (by rw [Int64.toInt_zero]; omega)
      have hpush := State.push_eq_error (s := { s with ip := s.ip + 1 }) hzero (by
        change s.hp.toInt < 0
        omega) c
      refine ⟨0, Nat.zero_le 1, s, .refl s, .inr ⟨hzero, ?_⟩⟩
      rw [step, if_neg hmeet, h]
      simp [execute, hpush, Except.map]

end

end ObjectLang.Machine
