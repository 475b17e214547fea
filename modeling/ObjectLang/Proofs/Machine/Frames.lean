import ObjectLang.Proofs.Machine.Refinement
import Mathlib.Data.List.Chain

/-!
# Frames and links

Straight-line code can be run as a whole (`execAll`), which is a run of the segmented machine
(`steps_execAll`).

A frame or an object is known by its link, the address it begins at.  Links form chains: the word
at a link is the next one (`State.Linked`).  A variable is the word at an offset from a link
(`State.slot`).  The code that follows links and loads a variable finds these words, in any state
that has grown from the one in which they were found (`Grows`).
-/

namespace ObjectLang

/-- Is the next operation the one after it? -/
def Op.fallsThrough {τ : Type} : Op τ → Bool
  | .beq _ | .bleq _ | .b _ | .js | .halt => false
  | _ => true

namespace Segmented

/-! ### Straight-line code -/

/-- The effect of operations one after the other. -/
def execAll (img : Image) : List (Op Label) → State → Outcome
  | [], s => .next s
  | o :: os, s =>
    match execute img { s with ip := s.ip + 1 } o with
    | .next t => execAll img os t
    | r => r

section Rules

variable (img : Image) (os : List (Op Label)) (st : List Word) (heap : List Int64)
  (pending : Option Int64) (ip : Nat) (fp ra tm w : Word) (v v' : Int64) (output : List Int64)
  (made : List (Int64 × String))

@[simp] theorem execAll_nil (s : State) : execAll img [] s = .next s := rfl

@[simp] theorem execAll_push :
    execAll img (.push v :: os) ⟨st, heap, pending, ip, fp, ra, tm, output, made⟩ =
      execAll img os ⟨.plain v :: st, heap, pending, ip + 1, fp, ra, tm, output, made⟩ := rfl

@[simp] theorem execAll_pushTarget (l : Label) :
    execAll img (.pushTarget l :: os) ⟨st, heap, pending, ip, fp, ra, tm, output, made⟩ =
      execAll img os
        ⟨.plain (Int64.ofNat (img.address l)) :: st, heap, pending, ip + 1, fp, ra, tm, output,
          made⟩ := rfl

@[simp] theorem execAll_pop :
    execAll img (.pop :: os) ⟨w :: st, heap, pending, ip, fp, ra, tm, output, made⟩ =
      execAll img os ⟨st, heap, pending, ip + 1, fp, ra, tm, output, made⟩ := rfl

@[simp] theorem execAll_sub :
    execAll img (.sub :: os)
        ⟨.plain v' :: .plain v :: st, heap, pending, ip, fp, ra, tm, output, made⟩ =
      execAll img os ⟨.plain (v - v') :: st, heap, pending, ip + 1, fp, ra, tm, output, made⟩ := rfl

@[simp] theorem execAll_lfp :
    execAll img (.lfp :: os) ⟨st, heap, pending, ip, fp, ra, tm, output, made⟩ =
      execAll img os ⟨fp :: st, heap, pending, ip + 1, fp, ra, tm, output, made⟩ := rfl

@[simp] theorem execAll_sfp :
    execAll img (.sfp :: os) ⟨w :: st, heap, pending, ip, fp, ra, tm, output, made⟩ =
      execAll img os ⟨st, heap, pending, ip + 1, w, ra, tm, output, made⟩ := rfl

@[simp] theorem execAll_cfp :
    execAll img (.cfp :: os) ⟨st, heap, pending, ip, fp, ra, tm, output, made⟩ =
      execAll img os
        ⟨st, heap, pending, ip + 1, .cell st.length, ra, tm, output, made⟩ := rfl

@[simp] theorem execAll_lra :
    execAll img (.lra :: os) ⟨st, heap, pending, ip, fp, ra, tm, output, made⟩ =
      execAll img os ⟨ra :: st, heap, pending, ip + 1, fp, ra, tm, output, made⟩ := rfl

@[simp] theorem execAll_sra :
    execAll img (.sra :: os) ⟨w :: st, heap, pending, ip, fp, ra, tm, output, made⟩ =
      execAll img os ⟨st, heap, pending, ip + 1, fp, w, tm, output, made⟩ := rfl

@[simp] theorem execAll_ltm :
    execAll img (.ltm :: os) ⟨st, heap, pending, ip, fp, ra, tm, output, made⟩ =
      execAll img os ⟨tm :: st, heap, pending, ip + 1, fp, ra, tm, output, made⟩ := rfl

@[simp] theorem execAll_stm :
    execAll img (.stm :: os) ⟨w :: st, heap, pending, ip, fp, ra, tm, output, made⟩ =
      execAll img os ⟨st, heap, pending, ip + 1, fp, ra, w, output, made⟩ := rfl

@[simp] theorem execAll_print :
    execAll img (.print :: os) ⟨.plain v :: st, heap, pending, ip, fp, ra, tm, output, made⟩ =
      execAll img os
        ⟨.plain v :: st, heap, pending, ip + 1, fp, ra, tm, output ++ [v], made⟩ := rfl

theorem execAll_pops (count : Nat) (ws : List Word) (h : ws.length = count) :
    execAll img (List.replicate count .pop ++ os)
        ⟨ws ++ st, heap, pending, ip, fp, ra, tm, output, made⟩ =
      execAll img os ⟨st, heap, pending, ip + count, fp, ra, tm, output, made⟩ := by
  induction ws generalizing count ip with
  | nil =>
    subst h
    simp
  | cons w ws ih =>
    subst h
    rw [List.length_cons, List.replicate_succ, List.cons_append, List.cons_append, execAll_pop,
      ih _ _ rfl]
    congr 2
    omega

end Rules

theorem execute_ip {img : Image} {s t : State} {o : Op Label} (hf : o.fallsThrough = true)
    (h : execute img s o = .next t) : t.ip = s.ip := by
  cases o <;> simp only [Op.fallsThrough, Bool.false_eq_true] at hf <;>
    simp only [execute, State.push, State.popInto, State.binary, State.load, State.store,
      State.growHeap] at h <;>
    (repeat' split at h) <;> cases h <;> rfl

theorem execute_stack {img : Image} {s t : State} {o : Op Label} (hf : o.fallsThrough = true)
    (h : execute img s o = .next t) : t.stack.length ≤ s.stack.length + 1 := by
  cases o <;> simp only [Op.fallsThrough, Bool.false_eq_true] at hf <;>
    simp only [execute, State.push, State.popInto, State.binary, State.load, State.store,
      State.growHeap] at h <;>
    (repeat' split at h) <;> cases h <;> simp_all <;> omega

/-- The stack has grown by at most as many words as the run has gone on in the code. -/
def Forward (s t : State) : Prop := t.stack.length + s.ip ≤ s.stack.length + t.ip

theorem Forward.refl (s : State) : Forward s s := Nat.le_refl _

theorem Forward.trans {s t u : State} (h₁ : Forward s t) (h₂ : Forward t u) : Forward s u := by
  unfold Forward at *
  omega

theorem forward_execute {img : Image} {s t : State} {o : Op Label} (hf : o.fallsThrough = true)
    (h : execute img { s with ip := s.ip + 1 } o = .next t) : Forward s t := by
  have hip : t.ip = s.ip + 1 := execute_ip hf h
  have hst : t.stack.length ≤ { s with ip := s.ip + 1 }.stack.length + 1 := execute_stack hf h
  simp only at hst
  unfold Forward
  omega

variable {img : Image} {Q : State → Prop}

theorem steps_op {s t : State} {o : Op Label} (hq : Q s)
    (hp : img.piece s.ip = some (.instr (.op o)))
    (h : execute img { s with ip := s.ip + 1 } o = .next t) : Steps img Q 1 s t :=
  .single hq (by rw [step, hp]; exact h)

/-- Straight-line code runs from its first operation to the address after its last. -/
theorem steps_execAll {os : List (Op Label)} (hf : os.all Op.fallsThrough = true) {s t : State}
    (hq : ∀ {u : State} {i : Instruction}, Forward s u → img.piece u.ip = some (.instr i) → Q u)
    (hp : img.Placed s.ip (Piece.plain (straight os))) (h : execAll img os s = .next t) :
    Steps img Q os.length s t := by
  induction os generalizing s with
  | nil =>
    cases h
    exact .refl _
  | cons o os ih =>
    simp only [List.all_cons, Bool.and_eq_true] at hf
    simp only [straight_cons, plain_cons, Image.placed_op] at hp
    simp only [execAll] at h
    cases hx : execute img { s with ip := s.ip + 1 } o with
    | next u =>
      rw [hx] at h
      have hip : u.ip = s.ip + 1 := execute_ip hf.1 hx
      have hu := ih hf.2 (fun hv => hq ((forward_execute hf.1 hx).trans hv))
        (by rw [hip]; exact hp.2) h
      rw [List.length_cons, Nat.add_comm]
      exact (steps_op (hq (.refl s) hp.1) hp.1 hx).trans hu
    | halted | fault | stuck => rw [hx] at h; cases h

/-! ### Reading through links -/

/-- There is a machine on which the state has room. -/
def State.Room (s : State) : Prop := s.stack.length + s.heap.length < 2 ^ 63

theorem getElem?_of_prefix {α : Type} {as bs : List α} (h : as <+: bs) {i : Nat} {a : α}
    (ha : as[i]? = some a) : bs[i]? = some a := by
  obtain ⟨rest, rfl⟩ := h
  rw [List.getElem?_append_left (List.getElem?_eq_some_iff.1 ha).1]
  exact ha

/-- Stack and heap have grown, and nothing in them has changed. -/
structure Grows (s t : State) : Prop where
  stack : s.stack <:+ t.stack
  heap : s.heap <+: t.heap

namespace Grows

variable {s t : State}

theorem refl (s : State) : Grows s s := ⟨List.suffix_rfl, List.prefix_rfl⟩

theorem read (h : Grows s t) {a w : Word} (hr : s.read a = some w) : t.read a = some w := by
  cases a with
  | cell d =>
    simp only [State.read] at hr ⊢
    split at hr
    · rename_i hd
      rw [if_pos hd]
      have hrev := List.reverse_prefix.2 h.stack
      exact getElem?_of_prefix hrev hr
    · cases hr
  | plain a =>
    simp only [State.read] at hr ⊢
    split at hr
    · rename_i ha
      obtain ⟨v, hv, rfl⟩ := Option.map_eq_some_iff.1 hr
      rw [if_pos ha, getElem?_of_prefix h.heap hv]
      rfl
    · cases hr

end Grows

namespace State

variable (s : State)

/-- The word at an offset from a link. -/
def slot (link : Word) (offset : Int) : Option Word :=
  match link with
  | .cell d => if 0 ≤ d ∧ d ≤ s.stack.length then s.read (.cell (d - offset)) else none
  | .plain a =>
    if 0 ≤ a ∧ 0 ≤ a.toInt + offset then s.heap[(a.toInt + offset).toNat]?.map .plain else none

/-- The word at each link is the next one. -/
def Linked (chain : List Word) : Prop := chain.IsChain fun a b => s.read a = some b

end State

theorem Grows.slot {s t : State} (h : Grows s t) {link w : Word} {offset : Int}
    (hs : s.slot link offset = some w) : t.slot link offset = some w := by
  cases link with
  | cell d =>
    simp only [State.slot] at hs ⊢
    split at hs
    · rename_i hd
      have hlen := h.stack.length_le
      rw [if_pos ⟨hd.1, by omega⟩]
      exact h.read hs
    · cases hs
  | plain a =>
    simp only [State.slot] at hs ⊢
    split at hs
    · rename_i ha
      obtain ⟨v, hv, rfl⟩ := Option.map_eq_some_iff.1 hs
      rw [if_pos ha, getElem?_of_prefix h.heap hv]
      rfl
    · cases hs

theorem Grows.linked {s t : State} (h : Grows s t) {chain : List Word} (hl : s.Linked chain) :
    t.Linked chain :=
  List.IsChain.imp (fun _ _ => h.read) hl

/-- The address of a slot can be computed with words. -/
theorem State.Room.address {s : State} (hroom : s.Room) {link w : Word} {offset : Int}
    (hs : s.slot link offset = some w) :
    ∃ a, link.add (.plain (Int64.ofInt offset)) = some a ∧ s.read a = some w := by
  unfold State.Room at hroom
  cases link with
  | cell d =>
    simp only [State.slot, State.read] at hs
    split at hs
    · rename_i hd
      split at hs
      · rename_i hle
        have hlt := (List.getElem?_eq_some_iff.1 hs).1
        rw [List.length_reverse] at hlt
        have hoff : (Int64.ofInt offset).toInt = offset :=
          Int64.toInt_ofInt_of_le (by omega) (by omega)
        refine ⟨.cell (d - offset), by rw [Word.add, hoff], ?_⟩
        rw [State.read, if_pos hle]
        exact hs
      · cases hs
    · cases hs
  | plain a =>
    simp only [State.slot] at hs
    split at hs
    · rename_i ha
      obtain ⟨v, hv, rfl⟩ := Option.map_eq_some_iff.1 hs
      have hlt := (List.getElem?_eq_some_iff.1 hv).1
      have hsum : a + Int64.ofInt offset = Int64.ofNat (a.toInt + offset).toNat := by
        rw [← Int64.ofInt_eq_ofNat, Int.toNat_of_nonneg ha.2, Int64.ofInt_add, Int64.ofInt_toInt]
      refine ⟨_, rfl, ?_⟩
      rw [hsum, State.read, if_pos (zero_le_ofNat (by omega)),
        Int64.toNatClampNeg_ofNat_of_lt (by omega), hv]
      rfl
    · cases hs

section Loads

variable {img : Image} {s u : State} {rest : List Word}

theorem execAll_lw (os : List (Op Label)) {a w : Word} (hu : u.stack = a :: rest)
    (hr : State.read { u with stack := rest } a = some w) :
    execAll img (.lw :: os) u =
      execAll img os { u with stack := w :: rest, ip := u.ip + 1 } := by
  have hr' : State.read { u with stack := rest, ip := u.ip + 1 } a = some w := hr
  simp only [execAll, execute, State.load, hu, hr']

variable (hst : s.stack <:+ rest) (hhp : s.heap <+: u.heap)
include hst hhp

/-- Following links leads along the chain. -/
theorem execAll_climb {chain : List Word} (hl : s.Linked chain) {a b : Word}
    (hu : u.stack = a :: rest) (ha : chain[0]? = some a) {hops : Nat}
    (hb : chain[hops]? = some b) (os : List (Op Label)) :
    execAll img (List.replicate hops .lw ++ os) u =
      execAll img os { u with stack := b :: rest, ip := u.ip + hops } := by
  induction hops generalizing chain u a with
  | zero =>
    obtain rfl : a = b := by simpa [ha] using hb
    rw [← hu]
    rfl
  | succ hops ih =>
    obtain _ | ⟨a', chain⟩ := chain
    · cases ha
    obtain rfl : a' = a := by simpa using ha
    obtain _ | ⟨c, chain⟩ := chain
    · simp at hb
    obtain ⟨hac, hl⟩ := List.isChain_cons_cons.1 hl
    have hg : Grows s { u with stack := rest } := ⟨hst, hhp⟩
    have hnext := ih (u := { u with stack := c :: rest, ip := u.ip + 1 }) hhp hl rfl rfl
      (by simpa using hb)
    rw [List.replicate_succ, List.cons_append, execAll_lw _ hu (hg.read hac), hnext]
    congr 2
    simp only
    omega

/-- Loading a variable finds its word. -/
theorem execAll_loadAt (hroom : s.Room) {link w : Word} {offset : Int}
    (hs : s.slot link offset = some w) (hu : u.stack = link :: rest) (os : List (Op Label)) :
    execAll img ([.push (Int64.ofInt offset), .add, .lw] ++ os) u =
      execAll img os { u with stack := w :: rest, ip := u.ip + 3 } := by
  obtain ⟨a, ha, hr⟩ := hroom.address hs
  have hadd : execAll img ([.push (Int64.ofInt offset), .add, .lw] ++ os) u =
      execAll img (.lw :: os) { u with stack := a :: rest, ip := u.ip + 2 } := by
    simp only [List.cons_append, List.nil_append, execAll, execute, State.push, hu, ha]
  have hg : Grows s { u with stack := rest, ip := u.ip + 2 } := ⟨hst, hhp⟩
  rw [hadd]
  exact execAll_lw (u := { u with stack := a :: rest, ip := u.ip + 2 }) os rfl (hg.read hr)

end Loads

end Segmented

end ObjectLang
