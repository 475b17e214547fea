import ObjectLang.Proofs.Code.Assembly
import ObjectLang.Proofs.Machine.Recorded

/-!
# Bounds that hold whatever the code

Code need not come from a program: it may set the heap pointer to any word, jump wherever it likes
and store over its own stack.  Still the stack pointer stays within the memory
(`State.Bounded`), since a push is checked by the store that it makes, and a pop by the test for an
empty stack.

`Effect` says all that an operation can do in a bounded state, and `Recorded.acts_execute` that
it does nothing else.  What holds along a run (`Takes.bounded`) and of its result
(`Listing.run_within_bounds`) follows from there.
-/

namespace ObjectLang

/-! ### Words next to one another -/

theorem toInt_add_one {a b : Int64} (h : a < b) : (a + 1).toInt = a.toInt + 1 := by
  have hmin := a.minValue_le_toInt
  have hmax := b.toInt_le
  have hsum : (a + 1).toInt = (a.toInt + 1).bmod (2 ^ 64) := Int64.toInt_add a 1
  rw [Int64.lt_iff_toInt_lt] at h
  rw [Int64.toInt_minValue] at hmin
  rw [Int64.toInt_maxValue] at hmax
  rw [hsum, Int.bmod_def]
  omega

theorem toInt_sub_one {a : Int64} (h : 0 ≤ a.toInt) : (a - 1).toInt = a.toInt - 1 := by
  have hmax := a.toInt_le
  have hdiff : (a - 1).toInt = (a.toInt - 1).bmod (2 ^ 64) := Int64.toInt_sub a 1
  rw [Int64.toInt_maxValue] at hmax
  rw [hdiff, Int.bmod_def]
  omega

namespace Machine

/-- The memory has so many words, and the stack pointer is one of its addresses or the one just
past it. -/
structure State.Bounded (size : Nat) (s : State) : Prop where
  memory : s.memory.size = size
  sp_nonneg : 0 ≤ s.sp.toInt
  sp_le : s.sp.toInt ≤ size

theorem State.Bounded.of_core {size : Nat} {s t : State} (h : s.Bounded size)
    (hcore : t.core = s.core) : t.Bounded size := by
  have hmemory : t.memory = s.memory := congrArg Core.memory hcore
  have hsp : t.sp = s.sp := congrArg Core.sp hcore
  exact ⟨hmemory ▸ h.memory, hsp ▸ h.sp_nonneg, hsp ▸ h.sp_le⟩

/-- A word that is read is the one that the memory has at the index, a word is written to an index
of the memory, and the stack pointer stays in the range of words. -/
def Event.Sound (memory : Array Int64) : Event → Prop
  | read i v => memory[i]? = some v
  | write i _ => i < memory.size
  | move sp distance => (sp + distance).toInt = sp.toInt + distance.toInt

/-- What an operation that succeeds may do, in code with `length` operations. -/
structure Effect (size length : Nat) (o : Op Nat) (s t : State) : Prop where
  bounded : t.Bounded size
  /-- It goes on with the next operation, or to its target, or jumps inside the code. -/
  ip : t.ip = s.ip ∨ o.target? = some t.ip ∨ t.ip < length
  /-- It writes at most one word, and not below the heap pointer unless it is a store. -/
  memory : t.memory = s.memory ∨ ∃ (i : Nat) (v : Int64), (o = .sw ∨ s.hp.toInt ≤ i) ∧
    t.memory = s.memory.setIfInBounds i v

theorem Effect.changes {size length : Nat} {o : Op Nat} {s t : State}
    (h : Effect size length o s t) :
    ∃ a : Nat, ∀ i, t.memory[i]? ≠ s.memory[i]? → i = a ∧ (o = .sw ∨ s.hp.toInt ≤ i) := by
  obtain hsame | ⟨a, v, ha, hset⟩ := h.memory
  · exact ⟨0, fun i hi => absurd (by rw [hsame]) hi⟩
  · refine ⟨a, fun i hi => ?_⟩
    have heq : i = a := Decidable.byContradiction fun hne =>
      hi (by rw [hset, Array.getElem?_setIfInBounds_ne (Ne.symm hne)])
    exact ⟨heq, heq ▸ ha⟩

theorem State.inMemory_iff {s : State} {address : Int64} : s.inMemory address = true ↔
    0 ≤ address.toInt ∧ address.toNatClampNeg < s.memory.size := by
  simp [State.inMemory, Int64.le_iff_toInt_le]

/-- There is a word to pop unless the stack pointer is at the end of memory. -/
theorem State.Bounded.base_le_iff {size : Nat} {s : State} (h : s.Bounded size)
    (hsize : size < 2 ^ 63) : s.base ≤ s.sp ↔ s.sp.toInt = size := by
  have hle := h.sp_le
  rw [State.base, h.memory, Int64.le_iff_toInt_le, Int64.toInt_ofNat_of_lt hsize]
  omega

namespace Recorded

variable {size : Nat} {s : State}

/-! ### Access to memory -/

theorem ensures_load (address : Int64) :
    (load s address).Ensures s.core (Event.Sound s.memory) fun d _ => d = s.core := by
  unfold load
  split
  · rename_i hin
    have hlt := (State.inMemory_iff.1 hin).2
    refine .note ?_ (ensures_pure rfl)
    simp [Event.Sound, hlt]
  · exact ensures_fail _

theorem ensures_store (address value : Int64) :
    (store s address value).Ensures s.core (Event.Sound s.memory) fun d t => d = t.core ∧
      ∃ i : Nat, (i : Int) = address.toInt ∧
        t = { s with memory := s.memory.setIfInBounds i value } := by
  unfold store
  split
  · rename_i hin
    obtain ⟨hnonneg, hlt⟩ := State.inMemory_iff.1 hin
    exact .note hlt (ensures_pure ⟨rfl, _, Int.toNat_of_nonneg hnonneg, rfl⟩)
  · exact ensures_fail _

/-- A push writes just below the stack, which is not below the heap pointer. -/
theorem ensures_push (h : s.Bounded size) (value : Int64) :
    (push s value).Ensures s.core (Event.Sound s.memory) fun d t => d = t.core ∧
      t.Bounded size ∧ ∃ i : Nat, s.hp.toInt ≤ i ∧
        t = { s with sp := s.sp - 1, memory := s.memory.setIfInBounds i value } := by
  have hnonneg := h.sp_nonneg
  have hle := h.sp_le
  have hsp : (s.sp - 1).toInt = s.sp.toInt - 1 := toInt_sub_one hnonneg
  have hmove : s.sp + (-1) = s.sp - 1 := (Int64.sub_eq_add_neg s.sp 1).symm
  unfold push
  refine .note ?_ ?_
  · rw [Event.Sound, hmove, hsp]
    rfl
  · rw [Event.replay, State.core, hmove]
    split
    · exact ensures_fail _
    · rename_i hroom
      rw [Int64.lt_iff_toInt_lt, hsp] at hroom
      refine (ensures_store (s := { s with sp := s.sp - 1 }) _ _).mono ?_
      rintro d t ⟨rfl, i, hi, rfl⟩
      rw [hsp] at hi
      refine ⟨rfl, ⟨by simpa using h.memory, ?_, ?_⟩, i, by omega, rfl⟩
      · show 0 ≤ (s.sp - 1).toInt
        omega
      · show (s.sp - 1).toInt ≤ size
        omega

section

variable (hsize : size < 2 ^ 63) (h : s.Bounded size)
include hsize h

theorem ensures_peek :
    (peek s).Ensures s.core (Event.Sound s.memory) fun d _ => d = s.core ∧ s.sp.toInt < size := by
  unfold peek
  split
  · exact ensures_fail _
  · rename_i hbase
    rw [h.base_le_iff hsize] at hbase
    have hle := h.sp_le
    exact (ensures_load _).mono fun d v hd => ⟨hd, by omega⟩

/-- A pop leaves memory as it is. -/
theorem ensures_pop :
    (pop s).Ensures s.core (Event.Sound s.memory) fun d r => d = r.2.core ∧
      r.2 = { s with sp := s.sp + 1 } ∧ r.2.Bounded size := by
  refine (ensures_peek hsize h).bind ?_
  rintro d v ⟨rfl, hlt⟩
  have hnonneg := h.sp_nonneg
  have hbase : s.sp < Int64.ofNat size := by
    rwa [Int64.lt_iff_toInt_lt, Int64.toInt_ofNat_of_lt hsize]
  have hsp : (s.sp + 1).toInt = s.sp.toInt + 1 := toInt_add_one hbase
  refine .note hsp (ensures_pure ⟨rfl, rfl, h.memory, ?_, ?_⟩)
  · show 0 ≤ (s.sp + 1).toInt
    omega
  · show (s.sp + 1).toInt ≤ size
    omega

theorem ensures_popTwo :
    (popTwo s).Ensures s.core (Event.Sound s.memory) fun d r => d = r.2.2.core ∧
      r.2.2 = { s with sp := s.sp + 1 + 1 } ∧ r.2.2.Bounded size := by
  refine (ensures_pop hsize h).bind ?_
  rintro d ⟨right, t⟩ ⟨rfl, rfl, ht⟩
  refine (ensures_pop hsize ht).bind ?_
  rintro d ⟨left, u⟩ ⟨rfl, rfl, hu⟩
  exact ensures_pure ⟨rfl, rfl, hu⟩

end

/-! ### Operations -/

/-- The computation is one that an operation may make of a bounded state. -/
def Acts (size n : Nat) (o : Op Nat) (s : State) (x : Recorded State) : Prop :=
  x.Ensures s.core (Event.Sound s.memory) fun d t => d = t.core ∧ Effect size n o s t

section

variable {n : Nat} {o : Op Nat}

/-- A push is an effect of every operation, also after some words have been popped. -/
theorem ensures_push_effect {sp : Int64} (h : { s with sp := sp }.Bounded size) (value : Int64) :
    (push { s with sp := sp } value).Ensures { s with sp := sp }.core (Event.Sound s.memory)
      fun d t => d = t.core ∧ Effect size n o s t := by
  refine (ensures_push h value).mono ?_
  rintro d t ⟨hd, ht, i, hi, rfl⟩
  exact ⟨hd, ht, .inl rfl, .inr ⟨i, value, .inr hi, rfl⟩⟩

theorem acts_jump (h : s.Bounded size) (address : Int64) :
    (⟨[], s.jump n address⟩ : Recorded State).Acts size n o s where
  events := by simp
  outcome t ht := by
    simp only [State.jump] at ht
    split at ht
    · rename_i hin
      cases ht
      exact ⟨rfl, h.of_core rfl, .inr (.inr hin.2), .inl rfl⟩
    · cases ht

variable (hsize : size < 2 ^ 63) (h : s.Bounded size)
include hsize h

/-- A word is popped into a register, or thrown away. -/
theorem acts_popInto {f : Int64 → State → State} (hf : ∀ v t, (f v t).core = t.core)
    (hip : ∀ v t, (f v t).ip = t.ip) :
    (pop s >>= fun r => pure (f r.1 r.2)).Acts size n o s := by
  refine (ensures_pop hsize h).bind ?_
  rintro d ⟨value, u⟩ ⟨rfl, hu, hbounded⟩
  dsimp only at hu hbounded ⊢
  have hmemory : (f value u).memory = u.memory := congrArg Core.memory (hf value u)
  refine ensures_pure ⟨(hf value u).symm, hbounded.of_core (hf value u), .inl ?_, .inl ?_⟩
  · rw [hip, hu]
  · rw [hmemory, hu]

/-- Two words are popped and one is pushed. -/
theorem acts_binary (f : Int64 → Int64 → Int64) : (binary s f).Acts size n o s := by
  refine (ensures_popTwo hsize h).bind ?_
  rintro d ⟨left, right, u⟩ ⟨rfl, rfl, hu⟩
  exact ensures_push_effect hu _

theorem acts_branch (related : Int64 → Int64 → Bool) {target : Nat}
    (ho : o.target? = some target) : (branch s related target).Acts size n o s := by
  refine (ensures_popTwo hsize h).bind ?_
  rintro d ⟨left, right, u⟩ ⟨rfl, rfl, hu⟩
  refine ensures_pure ?_
  split
  · exact ⟨rfl, hu.of_core rfl, .inr (.inl ho), .inl rfl⟩
  · exact ⟨rfl, hu, .inl rfl, .inl rfl⟩

/-- **What every operation does in a bounded state.** -/
theorem acts_execute (o : Op Nat) : (execute s n o).Acts size n o s := by
  cases o with
  | push | pushTarget | lfp | lra | ltm | lhp => exact ensures_push_effect h _
  | pop => exact acts_popInto (f := fun _ t => t) hsize h (fun _ _ => rfl) fun _ _ => rfl
  | sfp =>
    exact acts_popInto (f := fun v t => { t with fp := v }) hsize h (fun _ _ => rfl)
      fun _ _ => rfl
  | sra =>
    exact acts_popInto (f := fun v t => { t with ra := v }) hsize h (fun _ _ => rfl)
      fun _ _ => rfl
  | stm =>
    exact acts_popInto (f := fun v t => { t with tm := v }) hsize h (fun _ _ => rfl)
      fun _ _ => rfl
  | shp =>
    exact acts_popInto (f := fun v t => { t with hp := v }) hsize h (fun _ _ => rfl)
      fun _ _ => rfl
  | add | sub | mult => exact acts_binary hsize h _
  | beq target => exact acts_branch hsize h (o := .beq target) _ rfl
  | bleq target =>
    exact acts_branch hsize h (o := .bleq target) (fun left right => decide (left ≤ right)) rfl
  | b => exact ensures_pure ⟨rfl, h.of_core rfl, .inr (.inl rfl), .inl rfl⟩
  | halt | cfp => exact ensures_pure ⟨rfl, h.of_core rfl, .inl rfl, .inl rfl⟩
  | print =>
    refine (ensures_peek hsize h).bind ?_
    rintro d v ⟨rfl, -⟩
    exact ensures_pure ⟨rfl, h.of_core rfl, .inl rfl, .inl rfl⟩
  | div =>
    refine (ensures_popTwo hsize h).bind ?_
    rintro d ⟨left, right, u⟩ ⟨rfl, rfl, hu⟩
    dsimp only
    split
    · exact ensures_fail _
    · exact ensures_push_effect hu _
  | js =>
    refine (ensures_pop hsize h).bind ?_
    rintro d ⟨target, u⟩ ⟨rfl, rfl, hu⟩
    have hjump := acts_jump (s := { s with sp := s.sp + 1, ra := Int64.ofNat s.ip })
      (n := n) (o := .js) (hu.of_core rfl) target
    exact hjump.mono fun d t ht => ⟨ht.1, ht.2.bounded, ht.2.ip, ht.2.memory⟩
  | lw =>
    refine (ensures_pop hsize h).bind ?_
    rintro d ⟨address, u⟩ ⟨rfl, rfl, hu⟩
    refine (ensures_load address).bind ?_
    rintro d v rfl
    exact ensures_push_effect hu v
  | sw =>
    refine (ensures_pop hsize h).bind ?_
    rintro d ⟨address, u⟩ ⟨rfl, rfl, hu⟩
    refine (ensures_pop hsize hu).bind ?_
    rintro d ⟨value, u⟩ ⟨rfl, rfl, hu⟩
    refine (ensures_store address value).mono ?_
    rintro d t ⟨hd, i, -, rfl⟩
    exact ⟨hd, ⟨by simpa using hu.memory, hu.sp_nonneg, hu.sp_le⟩, .inl rfl,
      .inr ⟨i, value, .inl rfl, rfl⟩⟩

end

/-- **What every step does in a bounded state**, also one that fails. -/
theorem ensures_step (hsize : size < 2 ^ 63) (h : s.Bounded size) (code : Array (Op Nat)) :
    (step s code).Ensures s.core (Event.Sound s.memory) fun d r =>
      r = .halted s ∨ ∃ t o, r = .running t ∧ code[s.ip]? = some o ∧ d = t.core ∧
        Effect size code.size o { s with ip := s.ip + 1 } t := by
  unfold step
  split
  · exact ensures_fail _
  · cases ho : code[s.ip]? with
    | none => exact ensures_fail _
    | some o =>
      have hrun : (execute { s with ip := s.ip + 1 } code.size o >>= fun t =>
          pure (Progress.running t)).Ensures s.core (Event.Sound s.memory) fun d r =>
            r = .halted s ∨ ∃ t o', r = .running t ∧ some o = some o' ∧ d = t.core ∧
              Effect size code.size o' { s with ip := s.ip + 1 } t := by
        have hexecute := acts_execute (s := { s with ip := s.ip + 1 }) (n := code.size) hsize
          (h.of_core rfl) o
        refine hexecute.bind ?_
        rintro d t ⟨hd, ht⟩
        exact ensures_pure (.inr ⟨t, o, rfl, rfl, hd, ht⟩)
      cases o with
      | halt => exact ensures_pure (.inl rfl)
      | _ => exact hrun

end Recorded

/-! ### Runs -/

theorem bounded_initial {size : Nat} (hsize : size < 2 ^ 63) :
    (State.initial size).Bounded size where
  memory := by simp [State.initial]
  sp_nonneg := by simp [State.initial, Int64.toInt_ofNat_of_lt hsize]
  sp_le := by simp [State.initial, Int64.toInt_ofNat_of_lt hsize]

section

variable {code : Array (Op Nat)} {size n : Nat} {s t : State}

/-- The effect of a step that goes on, in terms of its operation. -/
theorem effect_of_step (hsize : size < 2 ^ 63) (h : s.Bounded size)
    (hs : step code s = .ok (.running t)) :
    ∃ o, code[s.ip]? = some o ∧ Effect size code.size o { s with ip := s.ip + 1 } t ∧
      (Recorded.step s code).events.foldl Event.replay s.core = t.core := by
  obtain hhalted | ⟨u, o, hu, ho, hd, heffect⟩ :=
    (Recorded.ensures_step hsize h code).outcome _ (Recorded.outcome_step code ▸ hs)
  · cases hhalted
  · cases hu
    exact ⟨o, ho, heffect, hd⟩

theorem halt_of_step (hs : step code s = .ok (.halted t)) : t = s ∧ code[s.ip]? = some .halt := by
  unfold step at hs
  split at hs
  · cases hs
  · split at hs
    · cases hs
    · rename_i hop
      exact ⟨(Progress.halted.inj (Except.ok.inj hs)).symm, hop⟩
    · rename_i o _ _
      cases hx : execute code.size { s with ip := s.ip + 1 } o <;> simp [hx, Except.map] at hs

/-- **Bounds are kept along a run** of code all of whose targets are addresses of operations or the
one just past them. -/
theorem Takes.bounded (hsize : size < 2 ^ 63)
    (hcode : ∀ o ∈ code, ∀ a, o.target? = some a → a ≤ code.size) (h : Takes code n s t)
    (hs : s.Bounded size) (hip : s.ip ≤ code.size) : t.Bounded size ∧ t.ip ≤ code.size := by
  induction h with
  | refl => exact ⟨hs, hip⟩
  | head hstep _ ih =>
    obtain ⟨o, ho, heffect, -⟩ := effect_of_step hsize hs hstep
    obtain ⟨hlt, rfl⟩ := Array.getElem?_eq_some_iff.1 ho
    refine ih heffect.bounded ?_
    rcases heffect.ip with hnext | htarget | hjump
    · exact hnext ▸ hlt
    · exact hcode _ (Array.getElem_mem hlt) _ htarget
    · exact Nat.le_of_lt hjump

/-- A run with a result has halted within its budget. -/
theorem exists_takes_of_runFrom {limit budget : Nat} {e : Execution}
    (h : runFrom code limit budget s = .ok e) :
    ∃ n < budget, ∃ t, Takes code n s t ∧ code[t.ip]? = some .halt ∧
      e = ⟨t.output.toList, t.stack⟩ := by
  induction budget generalizing s with
  | zero => cases h
  | succ budget ih =>
    rw [runFrom] at h
    cases hs : step code s with
    | error f => simp [hs] at h
    | ok r =>
      rw [hs] at h
      cases r with
      | halted t =>
        obtain ⟨rfl, hop⟩ := halt_of_step hs
        exact ⟨0, budget.succ_pos, t, .refl t, hop, (Except.ok.inj h).symm⟩
      | running t =>
        obtain ⟨n, hn, u, htakes, hhalt, he⟩ := ih h
        exact ⟨n + 1, Nat.succ_lt_succ hn, u, .head hs htakes, hhalt, he⟩

/-- The stack of a bounded state is the part of memory from its end down to the stack pointer. -/
theorem State.Bounded.stack (h : s.Bounded size) : (s.stack.length : Int) = size - s.sp.toInt ∧
    ∀ i < s.stack.length, s.stack[i]? = s.memory[size - (i + 1)]? := by
  have hsp : (s.sp.toNatClampNeg : Int) = s.sp.toInt := Int.toNat_of_nonneg h.sp_nonneg
  have hle := h.sp_le
  have hstack := s.stack_of_nonneg h.sp_nonneg
  have hlength : s.stack.length = size - s.sp.toNatClampNeg := by
    simp [hstack, h.memory]
  refine ⟨by omega, fun i hi => ?_⟩
  rw [hstack, List.getElem?_reverse (by simpa [h.memory, hlength] using hi), List.getElem?_drop,
    Array.getElem?_toList, List.length_drop, Array.length_toList, h.memory]
  congr 1
  omega

end

end Machine

namespace Listing

variable {code : Listing}

theorem le_of_addressesFrom {start : Nat} {known found : NameMap Nat}
    (h : addressesFrom start known code = .ok found) {l : Label} {a : Nat}
    (hl : found.get? l = some a) : known.get? l = some a ∨ a ≤ start + code.ops.length := by
  induction code generalizing start known with
  | nil => exact .inl (Except.ok.inj h ▸ hl)
  | cons i code ih =>
    cases i with
    | op o =>
      rcases ih h with hknown | hle
      · exact .inl hknown
      · right
        simp only [ops_cons_op, List.length_cons]
        omega
    | label m =>
      simp only [addressesFrom] at h
      split at h
      · cases h
      · rcases ih h with hknown | hle
        · by_cases hlm : l = m
          · subst hlm
            rw [NameMap.get?_insert_self] at hknown
            right
            have := Option.some.inj hknown
            omega
          · rw [NameMap.get?_insert_of_ne start hlm] at hknown
            exact .inl hknown
        · exact .inr hle

theorem get?_of_mapTarget {known : NameMap Nat} {o : Op Label} {o' : Op Nat} {a : Nat}
    (h : o.mapTarget (locate known) = .ok o') (ha : o'.target? = some a) :
    ∃ l, known.get? l = some a := by
  have hlocate {l : Label} {f : Nat → Op Nat} (hf : ∀ b, (f b).target? = some b)
      (hl : f <$> locate known l = .ok o') : known.get? l = some a := by
    unfold locate at hl
    split at hl
    · rename_i b hb
      obtain rfl := Except.ok.inj hl
      rw [hb, ← ha, hf]
    · cases hl
  cases o with
  | pushTarget l | beq l | bleq l | b l => exact ⟨l, hlocate (fun _ => rfl) h⟩
  | _ =>
    obtain rfl := Except.ok.inj h
    cases ha

theorem mapM_ok {ε α β : Type} {f : α → Except ε β} {xs : List α} {ys : List β}
    (h : xs.mapM f = .ok ys) : ys.length = xs.length ∧ ∀ y ∈ ys, ∃ x, f x = .ok y := by
  induction xs generalizing ys with
  | nil =>
    obtain rfl := Except.ok.inj h
    simp
  | cons x xs ih =>
    rw [List.mapM_cons, bind_ok_iff] at h
    obtain ⟨y, hy, h⟩ := h
    obtain ⟨ys', hys, h⟩ := bind_ok_iff.1 h
    obtain rfl := Except.ok.inj h
    obtain ⟨hlen, hall⟩ := ih hys
    exact ⟨congrArg Nat.succ hlen, List.forall_mem_cons.2 ⟨⟨x, hy⟩, hall⟩⟩

/-- **Targets are addresses of operations, or the one just past them.** -/
theorem target_le_of_assemble {ops : List (Op Nat)} (h : code.assemble = .ok ops) {o : Op Nat}
    (ho : o ∈ ops) {a : Nat} (ha : o.target? = some a) : a ≤ ops.length := by
  obtain ⟨known, hknown, hops⟩ := bind_ok_iff.1 h
  obtain ⟨hlen, hall⟩ := mapM_ok hops
  obtain ⟨o', ho'⟩ := hall o ho
  obtain ⟨l, hl⟩ := get?_of_mapTarget ho' ha
  rcases le_of_addressesFrom hknown hl with hempty | hle
  · simp at hempty
  · omega

/-- **Whatever the code, a run stays within its bounds.**  Let a listing be assembled and run in a
memory of fewer than `2 ^ 63` words.  In every state that is reached,

* the memory has its size, the stack pointer is one of its addresses or the one just past it, and
  the next operation is one of the code or the one just past it;
* the next step, also one that fails, reads words that the memory has, writes to the memory, and
  moves the stack pointer without overflow;
* if it goes on, its record makes memory and stack pointer what they are then, and it changes one
  word at most, which is not below the heap pointer unless it is a store.

A run that ends with a result has halted in such a state, and the result is its output and the
words from the end of memory down to the stack pointer. -/
theorem run_within_bounds {ops : List (Op Nat)} {memorySize : Nat}
    (hops : code.assemble = .ok ops) (hsize : memorySize < 2 ^ 63) :
    (∀ {n : Nat} {s : Machine.State}, Machine.Takes ops.toArray n (.initial memorySize) s →
      s.memory.size = memorySize ∧ 0 ≤ s.sp.toInt ∧ s.sp.toInt ≤ memorySize ∧ s.ip ≤ ops.length ∧
      (Machine.Recorded.step s ops.toArray).outcome = Machine.step ops.toArray s ∧
      (∀ e ∈ (Machine.Recorded.step s ops.toArray).events, e.Sound s.memory) ∧
      ∀ t, Machine.step ops.toArray s = .ok (.running t) →
        (Machine.Recorded.step s ops.toArray).events.foldl Machine.Event.replay s.core = t.core ∧
        ∃ a : Nat, ∀ i, t.memory[i]? ≠ s.memory[i]? →
          i = a ∧ (ops[s.ip]? = some .sw ∨ s.hp.toInt ≤ i)) ∧
    ∀ {maxSteps : Nat} {e : Machine.Execution}, Machine.run ⟨memorySize, maxSteps⟩ code = .ok e →
      ∃ n < maxSteps, ∃ s, Machine.Takes ops.toArray n (.initial memorySize) s ∧
        ops[s.ip]? = some .halt ∧ e.output = s.output.toList ∧
        (e.stack.length : Int) = memorySize - s.sp.toInt ∧
        ∀ i < e.stack.length, e.stack[i]? = s.memory[memorySize - (i + 1)]? := by
  have hreached {n : Nat} {s : Machine.State}
      (hs : Machine.Takes ops.toArray n (.initial memorySize) s) :
      s.Bounded memorySize ∧ s.ip ≤ ops.length :=
    hs.bounded hsize (fun o ho a ha => target_le_of_assemble hops (by simpa using ho) ha)
      (Machine.bounded_initial hsize) (Nat.zero_le _)
  constructor
  · intro n s hs
    obtain ⟨hbounded, hip⟩ := hreached hs
    refine ⟨hbounded.memory, hbounded.sp_nonneg, hbounded.sp_le, hip,
      Machine.Recorded.outcome_step _, (Machine.Recorded.ensures_step hsize hbounded _).events, ?_⟩
    intro t ht
    obtain ⟨o, ho, heffect, hreplay⟩ := Machine.effect_of_step hsize hbounded ht
    obtain ⟨a, ha⟩ := heffect.changes
    refine ⟨hreplay, a, fun i hi => ⟨(ha i hi).1, (ha i hi).2.imp ?_ id⟩⟩
    rintro rfl
    simpa using ho
  · intro maxSteps e he
    rw [Machine.run, hops] at he
    obtain ⟨n, hn, s, hs, hhalt, rfl⟩ := Machine.exists_takes_of_runFrom he
    obtain ⟨hlength, hwords⟩ := (hreached hs).1.stack
    exact ⟨n, hn, s, hs, by simpa using hhalt, rfl, hlength, hwords⟩

/-- Code that lets the heap begin below the memory, stores a word inside the stack, and ends by a
jump. -/
def adversary : Listing :=
  [.op (.push (-9)), .op .shp, .op (.push 7), .op (.push 1), .op .sw, .op (.push 5),
    .op (.pushTarget "end"), .op .js, .label "end", .op .halt]

theorem run_within_bounds_adversary : ∃ ops s t, adversary.assemble = .ok ops ∧
    Machine.Takes ops.toArray 4 (.initial 3) s ∧
    Machine.step ops.toArray s = .ok (.running t) ∧ s.hp = -9 ∧
    (Machine.Recorded.step s ops.toArray).events =
      [.read 1 1, .move 1 1, .read 2 7, .move 2 1, .write 1 7] ∧
    (∀ e ∈ (Machine.Recorded.step s ops.toArray).events, e.Sound s.memory) ∧
    (∃ a : Nat, ∀ i, t.memory[i]? ≠ s.memory[i]? →
      i = a ∧ (ops[s.ip]? = some .sw ∨ s.hp.toInt ≤ i)) ∧
    Machine.run ⟨3, 100⟩ adversary = .ok ⟨[], [5]⟩ ∧
    ∃ n < 100, ∃ u, Machine.Takes ops.toArray n (.initial 3) u ∧ ops[u.ip]? = some .halt ∧
      ∀ i < 1, [5][i]? = u.memory[3 - (i + 1)]? := by
  have hops : adversary.assemble = .ok [.push (-9), .shp, .push 7, .push 1, .sw, .push 5,
    .pushTarget 8, .js, .halt] := rfl
  have htakes : Machine.Takes #[.push (-9), .shp, .push 7, .push 1, .sw, .push 5, .pushTarget 8,
      .js, .halt] 4 (.initial 3) ⟨#[0, 1, 7], 4, 1, 3, -9, 0, 0, #[]⟩ :=
    .head rfl (.head rfl (.head rfl (.head rfl (.refl _))))
  have hrun : Machine.run ⟨3, 100⟩ adversary = .ok ⟨[], [5]⟩ := rfl
  obtain ⟨hstates, hresult⟩ := run_within_bounds hops (by decide : 3 < 2 ^ 63)
  obtain ⟨-, -, -, -, -, hevents, hchange⟩ := hstates htakes
  obtain ⟨n, hn, u, hu, hhalt, -, -, hwords⟩ := hresult hrun
  exact ⟨_, _, _, hops, htakes, rfl, rfl, rfl, hevents, (hchange _ rfl).2, hrun, n, hn, u, hu,
    hhalt, hwords⟩

end Listing

end ObjectLang
