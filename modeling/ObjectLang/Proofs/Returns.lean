import ObjectLang.Proofs.Construction
import ObjectLang.Proofs.WellFormed

/-!
# Returning from a block

When a routine has its result on top of the stack, the end of its block takes the frame down.  The
result goes to `tm`; the local declarations, the access link and the arguments are dropped, the
return address goes to `ra` and the control link to `fp`.  Then the result and the return address
are pushed again, and the jump takes the return address.

Words only leave the stack before any are pushed, so there is room for the two: the run is out of
memory only if it was so at the first operation (`Machine.State.Concludes.leads`).  All of this is
so for any numbers of arguments and declarations, and for the block of every routine of a program
(`Program.returns_of_emit`).
-/

namespace ObjectLang

/-- The operations that take a frame down. -/
def unwindOps {τ : Type} (params locals : Nat) : List (Op τ) :=
  .stm :: (List.replicate locals .pop ++ .sra :: .pop :: (List.replicate params .pop ++ [.sfp]))

/-- The operations of `epilogue`. -/
def epilogueOps {τ : Type} (params locals : Nat) : List (Op τ) :=
  unwindOps params locals ++ [.ltm, .lra, .js]

theorem epilogue_eq (params locals : Nat) :
    epilogue params locals = straight (epilogueOps params locals) := by
  simp [epilogue, epilogueOps, unwindOps, straight]

theorem map_link_epilogueOps (address : Label → Nat) (params locals : Nat) :
    (epilogueOps params locals).map (Op.link address) = epilogueOps params locals := by
  simp [epilogueOps, unwindOps, Op.link, Op.mapTarget]

theorem length_unwindOps {τ : Type} (params locals : Nat) :
    (unwindOps (τ := τ) params locals).length = locals + params + 4 := by
  simp only [unwindOps, List.length_cons, List.length_append, List.length_replicate,
    List.length_nil]
  omega

theorem length_epilogueOps {τ : Type} (params locals : Nat) :
    (epilogueOps (τ := τ) params locals).length = locals + params + 4 + 3 := by
  rw [epilogueOps, List.length_append, length_unwindOps]
  rfl

namespace Machine

/-! ### The stack as a list -/

namespace State

variable {s : State} {size : Nat} {st : List Int64} {w : Int64}

theorem stack_prefix (s : State) : s.stack <+: s.memory.toList.reverse := by
  rw [stack]
  split
  · exact List.reverse_prefix.2 (List.drop_suffix _ _)
  · exact List.nil_prefix

theorem length_le_size (h : st <+: s.stack) : st.length ≤ s.memory.size := by
  have hle := (h.trans s.stack_prefix).length_le
  rwa [List.length_reverse, s.memory.length_toList] at hle

theorem Bounded.peek_of_stack (hb : s.Bounded size) (hsize : size < 2 ^ 63)
    (h : s.stack = st ++ [w]) : s.peek = .ok w := by
  obtain ⟨hlen, hget⟩ := hb.stack
  have hlast : s.stack.length = st.length + 1 := by
    rw [h, List.length_append, List.length_singleton]
  have hindex : s.sp.toNatClampNeg = size - (st.length + 1) := by
    change s.sp.toInt.toNat = _
    omega
  refine peek_eq_ok_iff.2 ⟨?_, hb.sp_nonneg, ?_⟩
  · rw [Int64.lt_iff_toInt_lt, base, hb.memory, Int64.toInt_ofNat_of_lt hsize]
    omega
  · rw [hindex, ← hget st.length (by omega), h, List.getElem?_concat_length]

theorem bounded_pushed (hb : s.Bounded size) (hpos : 0 < s.sp.toInt) (w : Int64) :
    (s.pushed w).Bounded size := by
  have hsp : (s.sp - 1).toInt = s.sp.toInt - 1 := toInt_sub_one (by omega)
  have hle := hb.sp_le
  refine ⟨?_, ?_, ?_⟩
  · rw [pushed, Array.size_setIfInBounds, hb.memory]
  · change 0 ≤ (s.sp - 1).toInt
    omega
  · change (s.sp - 1).toInt ≤ size
    omega

theorem stack_pushed (hb : s.Bounded size) (hpos : 0 < s.sp.toInt) (w : Int64) :
    (s.pushed w).stack = s.stack ++ [w] := by
  have hle := hb.sp_le
  have hmemory := hb.memory
  obtain ⟨i, hi⟩ : ∃ i, s.sp.toNatClampNeg = i + 1 := Nat.exists_eq_add_one.2 (by
    change 0 < s.sp.toInt.toNat
    omega)
  have hlt : i < s.memory.toList.length := by
    have hindex : s.sp.toInt.toNat = i + 1 := hi
    rw [Array.length_toList]
    omega
  have hdrop : (s.memory.toList.set i w).drop i = w :: s.memory.toList.drop (i + 1) := by
    rw [List.drop_eq_getElem_cons (by simpa using hlt), List.getElem_set_self,
      List.drop_set_of_lt (Nat.lt_succ_self i)]
  rw [stack_of_nonneg _ (bounded_pushed hb hpos w).sp_nonneg, s.stack_of_nonneg hb.sp_nonneg]
  simp only [pushed, toNatClampNeg_sub_one hpos, hi, Nat.add_sub_cancel,
    Array.toList_setIfInBounds, hdrop, List.reverse_cons]

/-- The state with other registers and only the lowest words left on its stack. -/
def lowered (s : State) (ip : Nat) (st : List Int64) (fp ra tm : Int64) : State :=
  { s with ip := ip, sp := Int64.ofNat (s.memory.size - st.length), fp := fp, ra := ra, tm := tm }

theorem lowered_stack (hb : s.Bounded size) : s.lowered s.ip s.stack s.fp s.ra s.tm = s := by
  have hsp : s.memory.size - s.stack.length = s.sp.toNatClampNeg := by
    have hlen := hb.stack.1
    have hmemory := hb.memory
    change _ = s.sp.toInt.toNat
    omega
  rw [lowered, hsp, ofNat_toNatClampNeg hb.sp_nonneg]

section

variable (ip : Nat) (fp ra tm : Int64) (hsize : s.memory.size < 2 ^ 63) (h : st <+: s.stack)
include hsize h

theorem toInt_sp_lowered :
    (s.lowered ip st fp ra tm).sp.toInt = (s.memory.size : Int) - st.length := by
  have hle := length_le_size h
  change (Int64.ofNat (s.memory.size - st.length)).toInt = _
  rw [Int64.toInt_ofNat_of_lt (by omega)]
  omega

theorem bounded_lowered : (s.lowered ip st fp ra tm).Bounded s.memory.size := by
  have hsp := toInt_sp_lowered ip fp ra tm hsize h
  have hle := length_le_size h
  exact ⟨rfl, by omega, by omega⟩

theorem stack_lowered : (s.lowered ip st fp ra tm).stack = st := by
  have hindex : (Int64.ofNat (s.memory.size - st.length)).toNatClampNeg =
      s.memory.size - st.length := Int64.toNatClampNeg_ofNat_of_lt (by omega)
  have htake := List.prefix_iff_eq_take.1 (h.trans s.stack_prefix)
  rw [List.take_reverse, Array.length_toList] at htake
  rw [stack_of_nonneg _ (bounded_lowered ip fp ra tm hsize h).sp_nonneg]
  simp only [lowered, hindex]
  exact htake.symm

end

theorem pop_lowered (ip : Nat) (fp ra tm : Int64) (hsize : s.memory.size < 2 ^ 63)
    (h : st ++ [w] <+: s.stack) :
    (s.lowered ip (st ++ [w]) fp ra tm).pop = .ok (w, s.lowered ip st fp ra tm) := by
  have hpeek := (bounded_lowered ip fp ra tm hsize h).peek_of_stack hsize
    (stack_lowered ip fp ra tm hsize h)
  have hle := length_le_size h
  rw [List.length_append, List.length_singleton] at hle
  have hsp : Int64.ofNat (s.memory.size - (st ++ [w]).length) + 1 =
      Int64.ofNat (s.memory.size - st.length) := by
    rw [List.length_append, List.length_singleton,
      (by omega : s.memory.size - st.length = s.memory.size - (st.length + 1) + 1),
      Int64.ofNat_add _ 1]
    rfl
  rw [pop_of_peek hpeek]
  simp only [lowered, hsp]

end State

/-! ### Taking words off the stack -/

theorem Leads.next {code : Array (Op Nat)} {short : Prop} {m n : Nat} {s t : State}
    {Q : State → Prop} (h : Leads code short m s fun u => u = t) (hip : t.ip = s.ip + m)
    (hrest : Leads code short n t Q) : Leads code short (m + n) s Q :=
  h.bind fun _ hu => hu ▸ ⟨hip, hrest⟩

section

variable {code : Array (Op Nat)} {short : Prop} {s : State} {o : Op Nat} {ip : Nat}
  {st : List Int64} {fp ra tm : Int64} (hsize : s.memory.size < 2 ^ 63)
  (hroom : s.hp.toInt < (s.memory.size : Int) - s.stack.length)
include hsize hroom

/-- One operation that takes a word off the stack and does no more than keep it somewhere. -/
theorem leads_lower {w : Int64} (h : st ++ [w] <+: s.stack) (ho : code[ip]? = some o)
    (hne : o ≠ .halt) (keep : Int64 → State → State)
    (hx : ∀ u : State, execute code.size u o = u.pop.map fun x => keep x.1 x.2) :
    Leads code short 1 (s.lowered ip (st ++ [w]) fp ra tm) fun t =>
      t = keep w (s.lowered (ip + 1) st fp ra tm) := by
  have hsp := State.toInt_sp_lowered ip fp ra tm hsize h
  have hle := h.length_le
  refine .inl ⟨_, .head (step_of_execute ?_ ho hne ?_) (.refl _), rfl⟩
  · change s.hp.toInt < _
    omega
  · change execute code.size (s.lowered (ip + 1) (st ++ [w]) fp ra tm) o = _
    rw [hx, State.pop_lowered _ _ _ _ hsize h, Except.map]

theorem leads_pops {ws : List Int64} (h : st ++ ws <+: s.stack)
    (hcode : Stands code ip (List.replicate ws.length .pop)) :
    Leads code short ws.length (s.lowered ip (st ++ ws) fp ra tm) fun t =>
      t = s.lowered (ip + ws.length) st fp ra tm := by
  -- the last of the words is the first one to go
  induction ws using List.reverseRecOn generalizing ip with
  | nil => exact .refl (by simp)
  | append_singleton ws w ih =>
    rw [List.length_append, List.length_singleton, List.replicate_succ] at hcode
    rw [← List.append_assoc] at h ⊢
    rw [List.length_append, List.length_singleton, Nat.add_comm ws.length, ← Nat.add_assoc]
    exact (leads_lower hsize hroom h hcode.1 (by simp) (fun _ t => t) fun _ => rfl).next rfl
      (ih ((List.prefix_append _ _).trans h) hcode.2)

/-- The frame is taken down, from the result on its top to the control link. -/
theorem leads_unwind {args locals : List Int64} {c a r v : Int64}
    (h : st ++ [c] ++ args ++ [a] ++ [r] ++ locals ++ [v] <+: s.stack)
    (hcode : Stands code ip (unwindOps args.length locals.length)) :
    Leads code short (locals.length + args.length + 4)
      (s.lowered ip (st ++ [c] ++ args ++ [a] ++ [r] ++ locals ++ [v]) fp ra tm) fun t =>
        t = s.lowered (ip + (locals.length + args.length + 4)) st c r v := by
  have hip : ip + (locals.length + args.length + 4) =
      ip + 1 + locals.length + 1 + 1 + args.length + 1 := by omega
  have hcount : locals.length + args.length + 4 =
      1 + (locals.length + (1 + (1 + (args.length + 1)))) := by omega
  rw [hip, hcount]
  simp only [unwindOps, Stands, stands_append, List.length_replicate, and_true] at hcode
  obtain ⟨hstm, hlocals, hsra, hpop, hargs, hsfp⟩ := hcode
  -- what is left on the stack after each part of the code
  have h₁ := (List.prefix_append _ [v]).trans h
  have h₂ := (List.prefix_append _ locals).trans h₁
  have h₃ := (List.prefix_append _ [r]).trans h₂
  have h₄ := (List.prefix_append _ [a]).trans h₃
  have h₅ := (List.prefix_append _ args).trans h₄
  refine (leads_lower hsize hroom h hstm (by simp)
    (fun x t => { t with tm := x }) fun _ => rfl).next rfl ?_
  refine (leads_pops hsize hroom h₁ hlocals).next rfl ?_
  refine (leads_lower hsize hroom h₂ hsra (by simp)
    (fun x t => { t with ra := x }) fun _ => rfl).next rfl ?_
  refine (leads_lower hsize hroom h₃ hpop (by simp) (fun _ t => t) fun _ => rfl).next rfl ?_
  refine (leads_pops hsize hroom h₄ hargs).next rfl ?_
  exact leads_lower hsize hroom h₅ hsfp (by simp) (fun x t => { t with fp := x }) fun _ => rfl

end

/-! ### Handing over the result -/

namespace State

variable {s : State} {size : Nat}

/-- The state after the result and the return address have been pushed and the jump has taken the
latter, which is still in memory, just below the stack. -/
def handed (s : State) : State :=
  { (s.pushed s.tm).pushed s.ra with
    ip := s.ra.toNatClampNeg
    sp := s.sp - 1
    ra := Int64.ofNat (s.ip + 3) }

theorem getElem?_memory_handed {i : Nat} (h : (i : Int) + 2 < s.sp.toInt ∨ s.sp.toInt ≤ i)
    (hpos : 0 < s.sp.toInt) : s.handed.memory[i]? = s.memory[i]? := by
  have hindex : (s.sp - 1).toNatClampNeg = s.sp.toInt.toNat - 1 := toNatClampNeg_sub_one hpos
  have hresult : s.sp.toNatClampNeg - 1 ≠ i := by
    change s.sp.toInt.toNat - 1 ≠ i
    omega
  have haddress : (s.sp - 1).toNatClampNeg - 1 ≠ i := by
    rw [hindex]
    omega
  change ((s.memory.setIfInBounds _ s.tm).setIfInBounds ((s.sp - 1).toNatClampNeg - 1) s.ra)[i]? = _
  rw [Array.getElem?_setIfInBounds_ne haddress, Array.getElem?_setIfInBounds_ne hresult]

theorem stack_handed (hb : s.Bounded size) (h : 2 ≤ s.sp.toInt) :
    s.handed.stack = s.stack ++ [s.tm] := by
  have hbelow : (s.sp - 1).toNatClampNeg - 1 < (s.sp - 1).toNatClampNeg := by
    have hindex : (s.sp - 1).toNatClampNeg = s.sp.toInt.toNat - 1 :=
      toNatClampNeg_sub_one (by omega)
    omega
  rw [← stack_pushed hb (by omega)]
  simp only [stack, handed, pushed, Array.toList_setIfInBounds, List.drop_set_of_lt hbelow]

end State

section

variable {code : Array (Op Nat)} {s : State} {size : Nat}

theorem step_push {o : Op Nat} {w : Int64} (hb : s.Bounded size) (hpos : 0 < s.sp.toInt)
    (hroom : s.hp.toInt < s.sp.toInt) (ho : code[s.ip]? = some o) (hne : o ≠ .halt)
    (hx : execute code.size { s with ip := s.ip + 1 } o = { s with ip := s.ip + 1 }.push w) :
    step code s = .ok (.running { s.pushed w with ip := s.ip + 1 }) := by
  have hle : s.sp.toInt ≤ s.memory.size := hb.memory.symm ▸ hb.sp_le
  exact step_of_execute hroom ho hne
    (hx.trans (State.push_eq_ok (s := { s with ip := s.ip + 1 }) hroom hpos hle w))

theorem leads_hand {short : Prop} (hb : s.Bounded size) (hsize : size < 2 ^ 63)
    (hcode : Stands code s.ip [.ltm, .lra, .js]) (hspace : 2 ≤ s.sp.toInt)
    (hroom : s.hp.toInt + 2 < s.sp.toInt) (hra : 0 ≤ s.ra.toInt) (hin : s.ra.toInt < code.size) :
    Leads code short 3 s fun t => t = s.handed := by
  obtain ⟨hltm, hlra, hjs, -⟩ := hcode
  have hsp : (s.sp - 1).toInt = s.sp.toInt - 1 := toInt_sub_one (by omega)
  have hsp' : (s.sp - 1 - 1).toInt = s.sp.toInt - 1 - 1 := hsp ▸ toInt_sub_one (by omega)
  -- the states after the two pushes
  let t : State := { s.pushed s.tm with ip := s.ip + 1 }
  have hbt : t.Bounded size := (State.bounded_pushed hb (by omega) s.tm).of_core rfl
  have hpos : 0 < t.sp.toInt := by
    change 0 < (s.sp - 1).toInt
    omega
  let u : State := { t.pushed s.ra with ip := s.ip + 2 }
  have hbu : { u with ip := s.ip + 3 }.Bounded size :=
    (State.bounded_pushed hbt hpos s.ra).of_core rfl
  have hresult : step code s = .ok (.running t) :=
    step_push hb (by omega) (by omega) hltm (by simp) rfl
  have haddress : step code t = .ok (.running u) := by
    refine step_push hbt hpos ?_ hlra (by simp) rfl
    change s.hp.toInt < (s.sp - 1).toInt
    omega
  have hjump : step code u = .ok (.running s.handed) := by
    refine step_of_execute ?_ hjs (by simp) ?_
    · change s.hp.toInt < (s.sp - 1 - 1).toInt
      omega
    · have hpop := State.pop_of_peek (hbu.peek_of_stack hsize (State.stack_pushed hbt hpos s.ra))
      have hvalid : 0 ≤ s.ra ∧ s.ra.toNatClampNeg < code.size := by
        refine ⟨Int64.le_iff_toInt_le.2 hra, ?_⟩
        change s.ra.toInt.toNat < code.size
        omega
      have hback : s.sp - 1 - 1 + 1 = s.sp - 1 := Int64.sub_add_cancel _ _
      change execute code.size { u with ip := s.ip + 3 } .js = _
      simp only [execute, hpop, bind, Except.bind, State.jump, if_pos hvalid]
      simp only [u, t, State.pushed, State.handed, hback]
  exact .inl ⟨_, .head hresult (.head haddress (.head hjump (.refl _))), rfl⟩

end

/-! ### The end of a block -/

/-- The words of an activation. -/
structure Activation where
  /-- The frame pointer of the caller. -/
  control : Int64
  /-- The arguments, as they were pushed. -/
  args : List Int64
  access : Int64
  returnAddress : Int64
  locals : List Int64

/-- The words from the bottom to the top. -/
def Activation.words (f : Activation) : List Int64 :=
  [f.control] ++ f.args ++ [f.access, f.returnAddress] ++ f.locals

theorem Activation.three_le_length (f : Activation) : 3 ≤ f.words.length := by
  simp only [Activation.words, List.length_append, List.length_cons, List.length_nil]
  omega

/-- An activation is on top of the words of its caller, with the result of its routine on top of
it, and the frame pointer points to the access link. -/
structure State.Concludes (s : State) (below : List Int64) (f : Activation) (v : Int64) : Prop where
  stack : s.stack = below ++ f.words ++ [v]
  sp_nonneg : 0 ≤ s.sp.toInt
  fp : s.fp.toInt = s.sp.toInt + (f.locals.length + 2)
  size : s.memory.size < 2 ^ 63

/-- The caller goes on: it has its own frame pointer and, on top of its words, the result.  It
finds the rest as it was, except where the activation and the result were in memory. -/
structure State.Returns (s t : State) (below : List Int64) (f : Activation) (v : Int64) : Prop where
  ip : (t.ip : Int) = f.returnAddress.toInt
  fp : t.fp = f.control
  stack : t.stack = below ++ [v]
  sp : t.sp.toInt = s.sp.toInt + f.words.length
  hp : t.hp = s.hp
  output : t.output = s.output
  size : t.memory.size = s.memory.size
  memory : ∀ i : Nat, (i : Int) < s.sp.toInt ∨ s.sp.toInt + f.words.length < i →
    t.memory[i]? = s.memory[i]?

namespace State.Concludes

variable {code : Array (Op Nat)} {s : State} {below : List Int64} {f : Activation} {v : Int64}
  (h : s.Concludes below f v)
include h

theorem length_stack : s.stack.length = below.length + f.words.length + 1 := by
  rw [h.stack, List.length_append, List.length_append, List.length_singleton]

theorem bounded : s.Bounded s.memory.size := by
  have hsize : s.stack.length = s.memory.size - s.sp.toInt.toNat := by
    rw [s.stack_of_nonneg h.sp_nonneg, List.length_reverse, List.length_drop, Array.length_toList]
    rfl
  have hlen := h.length_stack
  have hnonneg := h.sp_nonneg
  exact ⟨rfl, hnonneg, by omega⟩

theorem sp_eq : s.sp.toInt = (s.memory.size : Int) - (below.length + f.words.length + 1) := by
  have hsize := h.bounded.stack.1
  rw [h.length_stack] at hsize
  omega

theorem prefix_stack : below <+: s.stack := by
  rw [h.stack, List.append_assoc]
  exact List.prefix_append _ _

/-- Without the activation and the result, there is as much room as they took. -/
theorem toInt_sp_below (ip : Nat) (fp ra tm : Int64) :
    (s.lowered ip below fp ra tm).sp.toInt = s.sp.toInt + (f.words.length + 1) := by
  rw [toInt_sp_lowered ip fp ra tm h.size h.prefix_stack, h.sp_eq]
  omega

theorem returns_handed (ip : Nat) (hret : 0 ≤ f.returnAddress.toInt) :
    s.Returns (s.lowered ip below f.control f.returnAddress v).handed below f v := by
  have hsp := h.toInt_sp_below ip f.control f.returnAddress v
  have hnonneg := h.sp_nonneg
  have hwords := f.three_le_length
  refine ⟨Int.toNat_of_nonneg hret, rfl, ?_, ?_, rfl, rfl, ?_, ?_⟩
  · rw [stack_handed (bounded_lowered ip _ _ _ h.size h.prefix_stack) (by omega),
      stack_lowered ip _ _ _ h.size h.prefix_stack]
    rfl
  · have hless := toInt_sub_one (a := (s.lowered ip below f.control f.returnAddress v).sp)
      (by omega)
    refine hless.trans ?_
    omega
  · simp [handed, pushed, lowered]
  · intro i hi
    exact getElem?_memory_handed (by omega) (by omega)

/-- From any state at the end of a block with the result on top of the activation, the machine
returns to the caller, or else it is out of memory at the first operation. -/
theorem leads (hcode : Stands code s.ip (epilogueOps f.args.length f.locals.length))
    (hret : 0 ≤ f.returnAddress.toInt) (hin : f.returnAddress.toInt < code.size) :
    Leads code (s.sp ≤ s.hp) (f.locals.length + f.args.length + 4 + 3) s
      fun t => s.Returns t below f v := by
  by_cases hmeet : s.sp ≤ s.hp
  · exact .inr ⟨hmeet, 0, by omega, s, .refl s, if_pos hmeet⟩
  rw [Int64.le_iff_toInt_le] at hmeet
  obtain ⟨hunwind, hhand⟩ := stands_append.1 hcode
  rw [length_unwindOps] at hhand
  have hdown : Leads code (s.sp ≤ s.hp) (f.locals.length + f.args.length + 4) s fun t =>
      t = s.lowered (s.ip + (f.locals.length + f.args.length + 4)) below f.control
        f.returnAddress v := by
    have hroom : s.hp.toInt < (s.memory.size : Int) - s.stack.length := by
      rw [h.bounded.stack.1]
      omega
    have hstack : below ++ [f.control] ++ f.args ++ [f.access] ++ [f.returnAddress] ++
        f.locals ++ [v] = s.stack := by
      simp [h.stack, Activation.words]
    have hleads : Leads code (s.sp ≤ s.hp) _ (s.lowered s.ip _ s.fp s.ra s.tm) _ :=
      leads_unwind h.size hroom ⟨[], by rw [List.append_nil, hstack]⟩ hunwind
    rwa [hstack, lowered_stack h.bounded] at hleads
  refine hdown.bind ?_
  rintro _ rfl
  have hsp := h.toInt_sp_below (s.ip + (f.locals.length + f.args.length + 4)) f.control
    f.returnAddress v
  have hbounded := bounded_lowered (s.ip + (f.locals.length + f.args.length + 4)) f.control
    f.returnAddress v h.size h.prefix_stack
  have hnonneg := h.sp_nonneg
  have hwords := f.three_le_length
  refine ⟨rfl, (leads_hand hbounded h.size hhand (by omega) ?_ hret hin).mono ?_⟩
  · change s.hp.toInt + 2 < _
    omega
  · rintro _ rfl
    exact h.returns_handed _ hret

end State.Concludes

end Machine

/-! ### The blocks of a program -/

/-- The block stands in the code after `before`, and `inside` is all of it but its end. -/
def Block.StandsIn (memorySize : Nat) (b : Block) (code before inside : Listing) : Prop :=
  b.routine.IsBlock memorySize b.labels b.number
      (inside ++ epilogue b.routine.params.length b.routine.decls.length) ∧
    ∃ after, code =
      before ++ inside ++ epilogue b.routine.params.length b.routine.decls.length ++ after

namespace Program

theorem exists_standsIn {p : Program} {memorySize : Nat} {code : Listing}
    (h : p.emit memorySize = .ok code) {b : Block} (hb : b ∈ p.blocks) :
    ∃ before inside, b.StandsIn memorySize code before inside := by
  have hblock := isBlock_of_mem h hb
  have ⟨_, _, _, _, hown⟩ := Routine.isBlock_iff.1 hblock
  rw [blockCode] at hown
  rw [hown] at hblock
  obtain ⟨earlier, later, hsplit⟩ := List.append_of_mem hb
  refine ⟨p.front.map (Piece.erase memorySize) ++ straight [.halt] ++
    earlier.flatMap (Block.code memorySize), _, hblock, later.flatMap (Block.code memorySize), ?_⟩
  rw [code_eq h, hsplit, List.flatMap_append, List.flatMap_cons, hown]
  simp only [List.append_assoc]

/-- **Returning from a block.**  If code is emitted for a program, the block of each of its routines
stands in it, and the code can be assembled.  Take any state at the end of such a block whose stack
ends with an activation of the routine and a result, with a return address inside the code.  The
machine executes the end of the block, and then is at the return address with the frame pointer of
the caller, and has the result in the place of the activation; or else it is out of memory before,
which can only be if it is so already. -/
theorem returns_of_emit {p : Program} {memorySize : Nat} {code : Listing}
    (h : p.emit memorySize = .ok code) :
    (p.blocks.map (·.routine)).Perm p.routines ∧
    ∃ ops, code.assemble = .ok ops ∧
      ∀ b ∈ p.blocks, (∃ before inside, b.StandsIn memorySize code before inside) ∧
        ∀ {before inside : Listing} {s : Machine.State} {below : List Int64}
          {f : Machine.Activation} {v : Int64},
          b.StandsIn memorySize code before inside →
          s.ip = (Listing.ops (before ++ inside)).length →
          f.args.length = b.routine.params.length → f.locals.length = b.routine.decls.length →
          0 ≤ f.returnAddress.toInt → f.returnAddress.toInt < ops.length →
          s.Concludes below f v →
          Machine.Leads ops.toArray (s.sp ≤ s.hp)
            (Listing.ops (epilogue b.routine.params.length b.routine.decls.length)).length s
            fun t => s.Returns t below f v := by
  refine ⟨p.perm_routines, ?_⟩
  obtain ⟨address, hops⟩ := assemble_of_emit h
  refine ⟨_, hops, fun b hb => ⟨exists_standsIn h hb, ?_⟩⟩
  rintro before inside s below f v ⟨-, after, hcode⟩ hip hargs hlocals hret hin hs
  have hstands : Machine.Stands (code.ops.map (Op.link address)).toArray s.ip
      (epilogueOps f.args.length f.locals.length) := by
    have hmiddle := Machine.stands_toArray
      ((Listing.ops (before ++ inside)).map (Op.link address))
      (epilogueOps f.args.length f.locals.length) (after.ops.map (Op.link address))
    rw [List.length_map] at hmiddle
    rw [hip, hcode]
    simp only [Listing.ops_append, epilogue_eq, Listing.ops_straight, List.map_append,
      map_link_epilogueOps, hargs, hlocals] at hmiddle ⊢
    exact hmiddle
  have hleads := hs.leads hstands hret (by simpa using hin)
  rw [epilogue_eq, Listing.ops_straight, length_epilogueOps, ← hargs, ← hlocals]
  exact hleads

/-- A function of two words with a variable for their sum. -/
def sumRoutine : Routine :=
  { name := "sum"
    params := [{ name := "x", ty := .int }, { name := "y", ty := .int }]
    ret := .int
    decls := [.var
      { name := "z", ty := .int
        init := .arith 1 .add (.ident 1 "x" (some ⟨⟨1, .int, 1⟩, 1⟩))
          (.ident 1 "y" (some ⟨⟨1, .int, 2⟩, 1⟩)) }]
    body := .ident 1 "z" (some ⟨⟨1, .int, -2⟩, 1⟩) }

/-- A program with the function. -/
def sums : Program := .letIn [] [.fn sumRoutine] (.int 2 0)

/-- The code before the block of the function. -/
def sumBefore : Listing := straight [.push 0, .pushTarget (blockLabel 0), .push 0, .halt]

/-- The block of the function without its end. -/
def sumInside : Listing :=
  [.label (blockLabel 0)] ++ straight [.cfp, .lra] ++
    straight [.lfp, .push 1, .add, .lw, .lfp, .push 2, .add, .lw, .add] ++
    straight [.lfp, .push (-2), .add, .lw]

/-- An activation of the function. -/
def sumFrame : Machine.Activation := ⟨15, [7, 5], 15, 3, [12]⟩

/-- The state at the end of the block, with a word on its heap. -/
def sumState : Machine.State :=
  ⟨#[99, 0, 0, 0, 0, 0, 0, 12, 12, 3, 15, 5, 7, 15, 4, 0], 19, 7, 10, 1, 3, 0, #[8]⟩

theorem returns_of_emit_sums : ∃ code ops t, sums.emit 16 = .ok code ∧
    code.assemble = .ok ops ∧ sumState.Concludes [0, 4] sumFrame 12 ∧
    Machine.Executes ops.toArray (List.range' 19 10) sumState t ∧ t.ip = 3 ∧ t.fp = 15 ∧
    t.stack = [0, 4, 12] ∧ t.hp = 1 ∧ t.output = #[8] ∧ t.memory[0]? = some 99 := by
  have hcode : sums.emit 16 = .ok (sumBefore ++ sumInside ++ epilogue 2 1 ++ []) := rfl
  have hstands : Block.StandsIn 16 ⟨sumRoutine, 0, 0⟩
      (sumBefore ++ sumInside ++ epilogue 2 1 ++ []) sumBefore sumInside :=
    ⟨⟨_, _, rfl, rfl, rfl⟩, [], rfl⟩
  have hs : sumState.Concludes [0, 4] sumFrame 12 :=
    ⟨by decide, by decide, by decide, by decide⟩
  obtain ⟨address, hlinked⟩ := assemble_of_emit hcode
  obtain ⟨-, ops, hops, hblocks⟩ := returns_of_emit hcode
  have hlength : ops.length = 29 := by
    rw [← Except.ok.inj (hlinked.symm.trans hops), List.length_map]
    rfl
  obtain ⟨-, hreturns⟩ := hblocks ⟨sumRoutine, 0, 0⟩ (.head _)
  obtain ⟨t, hexecutes, ht⟩ | ⟨hmeet, -⟩ := hreturns hstands (s := sumState) rfl rfl rfl (by decide)
    (by rw [hlength]; decide) hs
  · exact ⟨_, ops, t, hcode, hops, hs, hexecutes, Int.ofNat.inj ht.ip, ht.fp, ht.stack, ht.hp,
      ht.output, ht.memory 0 (by decide)⟩
  · exact absurd hmeet (by decide)

end Program

end ObjectLang
