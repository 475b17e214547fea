import ObjectLang.Proofs.Code.Heights

/-!
# Code that leaves one word

The code of an expression leaves one word on the stack and takes none but its own
(`Expr.rises`); so does the code of a class and that of a declaration (`ClassDecl.rises`,
`Decl.rises`).

The proof goes through the code of each expression (`Passes`), with the heights at its labels in the
order of their numbers (`Expr.labelHeights`) and the numbers of arguments at its call sites in the
order of their jumps (`Expr.calls`).
-/

namespace ObjectLang

/-! ### Code that is gone through -/

/-- Code that can be gone through, from one height to another, with the heights of labels given and
with the numbers of arguments at its call sites. -/
def Passes (lab : Label → Nat) (code : List Instruction) (calls : List Nat) (h k : Nat) : Prop :=
  ∀ seen rest, ∃ seen', seen ⊆ seen' ∧
    (⟨some h, seen, calls ++ rest⟩ : Scan).through lab code = some ⟨some k, seen', rest⟩

/-- The height after operations one after the other, if there are neither branches nor jumps among
them and there are enough words. -/
def heightAfter : List (Op Label) → Nat → Option Nat
  | [], h => some h
  | o :: os, h =>
    if o.goesOn ∧ o.branchTarget? = none ∧ o ≠ .js ∧ o.takes 0 ≤ h then
      heightAfter os (h - o.takes 0 + o.leaves)
    else none

section Passes

variable {lab : Label → Nat} {code code' : List Instruction} {calls calls' : List Nat}
  {h k m : Nat}

theorem Passes.nil : Passes lab [] [] h h := fun seen _ => ⟨seen, List.Subset.refl _, rfl⟩

theorem Passes.append (hc : Passes lab code calls h k) (hc' : Passes lab code' calls' k m) :
    Passes lab (code ++ code') (calls ++ calls') h m := by
  intro seen rest
  obtain ⟨seen₁, hsub, hthrough⟩ := hc seen (calls' ++ rest)
  obtain ⟨seen₂, hsub', hthrough'⟩ := hc' seen₁ rest
  refine ⟨seen₂, List.Subset.trans hsub hsub', ?_⟩
  rw [Scan.through_append, List.append_assoc, hthrough, Option.bind_some, hthrough']

theorem Passes.of_calls (hc : Passes lab code calls h k) (heq : calls = calls') :
    Passes lab code calls' h k := heq ▸ hc

theorem Passes.of_heights {h' k' : Nat} (hc : Passes lab code calls h k) (hh : h = h')
    (hk : k = k') : Passes lab code calls h' k' := hh ▸ hk ▸ hc

theorem takes_of_ne_js {o : Op Label} (ho : o ≠ .js) (args : Nat) : o.takes args = o.takes 0 := by
  cases o <;> first | rfl | exact absurd rfl ho

theorem passes_straight {os : List (Op Label)} (hos : heightAfter os h = some k) :
    Passes lab (straight os) [] h k := by
  intro seen rest
  refine ⟨seen, List.Subset.refl _, ?_⟩
  induction os generalizing h with
  | nil =>
    cases hos
    rfl
  | cons o os ih =>
    rw [heightAfter] at hos
    split at hos
    · rename_i hcond
      obtain ⟨hgo, htarget, hjs, hle⟩ := hcond
      have hnext : (⟨some h, seen, rest⟩ : Scan).next lab (.op o) =
          some ⟨some (h - o.takes 0 + o.leaves), seen, rest⟩ := by
        simp [Scan.next, takes_of_ne_js hjs, hgo, htarget, hjs, hle]
      rw [List.nil_append, straight, List.map_cons, Scan.through, hnext, Option.bind_some]
      exact ih hos
    · cases hos

theorem passes_js (args : Nat) : Passes lab (straight [.js]) [args] (h + args + 3) (h + 1) := by
  intro seen rest
  exact ⟨seen, List.Subset.refl _, by
    simp [straight, Scan.next, Op.takes, Op.leaves, Op.goesOn, Op.branchTarget?, Nat.add_assoc]⟩

theorem heightAfter_replicate_lw (n : Nat) :
    heightAfter (List.replicate n .lw) (h + 1) = some (h + 1) := by
  induction n with
  | zero => rfl
  | succ n ih => exact ih

theorem heightAfter_replicate_pop (n : Nat) :
    heightAfter (List.replicate n .pop) (h + n) = some h := by
  induction n with
  | zero => rfl
  | succ n ih => exact ih

theorem passes_climbLinks (hops : Nat) : Passes lab (climbLinks hops) [] (h + 1) (h + 1) :=
  passes_straight (heightAfter_replicate_lw hops)

theorem passes_loadAt (offset : Int) : Passes lab (loadAt offset) [] (h + 1) (h + 1) :=
  passes_straight rfl

theorem passes_advanceHeap : Passes lab advanceHeap [] h h := passes_straight rfl

theorem passes_moveToHeap : Passes lab moveToHeap [] (h + 1) h :=
  (passes_straight (h := h + 1) rfl).append passes_advanceHeap

/-- Words are moved to the heap one by one. -/
theorem passes_moves (n : Nat) :
    Passes lab (List.replicate n moveToHeap).flatten [] (h + n) h := by
  induction n with
  | zero => exact .nil
  | succ n ih => exact passes_moveToHeap.append ih

theorem passes_objectCode (size : Nat) (cls : Entry) (count : Nat) :
    Passes lab (objectCode size cls count) [] (h + count) (h + 1) :=
  ((passes_moves count).append (passes_straight rfl)).append passes_advanceHeap

theorem passes_tableEmit (table : DispatchTable) : Passes lab table.emit [] h (h + 1) := by
  refine (passes_straight (h := h) (k := h + 1) rfl).append ?_
  induction table with
  | nil => exact .nil
  | cons l table ih =>
    exact ((passes_straight (h := h + 1) rfl).append passes_moveToHeap).append ih

/-! ### Branches -/

section Branches

variable {n : Nat} {left right test yes no : List Instruction} {calls₁ calls₂ calls₃ : List Nat}

theorem passes_branchValue {branch : Label → Op Label} (hb : branch = .beq ∨ branch = .bleq)
    (h₀ : lab (branchLabel n) = h) (h₁ : lab (branchLabel (n + 1)) = h + 1) :
    Passes lab (branchValue branch n) [] (h + 2) (h + 1) := by
  intro seen rest
  refine ⟨branchLabel (n + 1) :: branchLabel n :: seen, by simp, ?_⟩
  rcases hb with rfl | rfl <;>
    simp [branchValue, straight, Scan.next, Op.takes, Op.leaves, Op.goesOn, Op.branchTarget?, h₀,
      h₁]

theorem passes_condCode (htest : Passes lab test calls₁ h (h + 1))
    (hno : Passes lab no calls₂ h (h + 1)) (hyes : Passes lab yes calls₃ h (h + 1))
    (h₀ : lab (branchLabel n) = h) (h₁ : lab (branchLabel (n + 1)) = h + 1) :
    Passes lab (condCode n test yes no) (calls₁ ++ calls₂ ++ calls₃) h (h + 1) := by
  intro seen rest
  obtain ⟨s₁, hs₁, e₁⟩ := htest seen (calls₂ ++ (calls₃ ++ rest))
  obtain ⟨s₂, hs₂, e₂⟩ := hno (branchLabel n :: s₁) (calls₃ ++ rest)
  obtain ⟨s₃, hs₃, e₃⟩ := hyes (branchLabel (n + 1) :: s₂) rest
  -- the code before the first label does not go on to it, but has branched to it
  have hseen : branchLabel n ∈ s₂ := hs₂ List.mem_cons_self
  refine ⟨s₃, fun l hl => ?_, ?_⟩
  · exact hs₃ (List.mem_cons_of_mem _ (hs₂ (List.mem_cons_of_mem _ (hs₁ hl))))
  · simp [condCode, straight, Scan.through_append, Scan.next, Op.takes, Op.leaves, Op.goesOn,
      Op.branchTarget?, h₀, h₁, e₁, e₂, e₃, hseen]

theorem passes_andCode (hleft : Passes lab left calls₁ h (h + 1))
    (hright : Passes lab right calls₂ h (h + 1)) (h₀ : lab (branchLabel n) = h)
    (h₁ : lab (branchLabel (n + 1)) = h + 1) :
    Passes lab (andCode n left right) (calls₁ ++ calls₂) h (h + 1) := by
  intro seen rest
  obtain ⟨s₁, hs₁, e₁⟩ := hleft seen (calls₂ ++ rest)
  obtain ⟨s₂, hs₂, e₂⟩ := hright (branchLabel n :: s₁) rest
  refine ⟨branchLabel (n + 1) :: branchLabel n :: s₂, fun l hl => ?_, ?_⟩
  · have hl₂ := hs₂ (List.mem_cons_of_mem _ (hs₁ hl))
    exact List.mem_cons_of_mem _ (List.mem_cons_of_mem _ hl₂)
  · simp [andCode, straight, Scan.through_append, Scan.next, Op.takes, Op.leaves, Op.goesOn,
      Op.branchTarget?, h₀, h₁, e₁, e₂]

theorem passes_orCode (hleft : Passes lab left calls₁ h (h + 1))
    (hright : Passes lab right calls₂ h (h + 1)) (h₀ : lab (branchLabel n) = h)
    (h₁ : lab (branchLabel (n + 1)) = h) (h₂ : lab (branchLabel (n + 2)) = h)
    (h₃ : lab (branchLabel (n + 3)) = h + 1) :
    Passes lab (orCode n left right) (calls₁ ++ calls₂) h (h + 1) := by
  intro seen rest
  obtain ⟨s₁, hs₁, e₁⟩ := hleft seen (calls₂ ++ rest)
  obtain ⟨s₂, hs₂, e₂⟩ := hright (branchLabel (n + 1) :: branchLabel n :: s₁) rest
  refine ⟨branchLabel (n + 3) :: branchLabel (n + 2) :: s₂, fun l hl => ?_, ?_⟩
  · have hl₂ := hs₂ (List.mem_cons_of_mem _ (List.mem_cons_of_mem _ (hs₁ hl)))
    exact List.mem_cons_of_mem _ (List.mem_cons_of_mem _ hl₂)
  · simp [orCode, straight, Scan.through_append, Scan.next, Op.takes, Op.leaves, Op.goesOn,
      Op.branchTarget?, h₀, h₁, h₂, h₃, e₁, e₂]

end Branches

/-! ### Calls -/

/-- The access link of a call. -/
def Binding.linkCode (b : Binding) : List Instruction :=
  straight [.lfp] ++ climbLinks b.hops ++ straight [.stm, .ltm]

/-- The address that a call jumps to. -/
def Binding.targetCode (b : Binding) : List Instruction :=
  straight [.ltm] ++ (if b.entry.isMethod then straight [.lw] else []) ++ loadAt b.entry.offset

/-- The access link of a method call. -/
def MethodBinding.linkCode (b : MethodBinding) : List Instruction :=
  straight [.lfp] ++ climbLinks b.hops ++ loadAt b.receiver.offset ++ straight [.stm, .ltm]

/-- The address that a method call jumps to. -/
def MethodBinding.targetCode (b : MethodBinding) : List Instruction :=
  straight [.ltm, .lw] ++ loadAt b.method.offset

theorem callCode_eq (b : Binding) (args : List Instruction) :
    callCode b args =
      straight [.lfp] ++ args ++ b.linkCode ++ b.targetCode ++ straight [.js] := by
  simp [callCode, Binding.linkCode, Binding.targetCode, copyTop, straight]

theorem sendCode_eq (b : MethodBinding) (args : List Instruction) :
    sendCode b args =
      straight [.lfp] ++ args ++ b.linkCode ++ b.targetCode ++ straight [.js] := by
  simp [sendCode, MethodBinding.linkCode, MethodBinding.targetCode, copyTop, straight]

theorem passes_lfp : Passes lab (straight [.lfp]) [] h (h + 1) := passes_straight rfl

/-- The top of the stack is kept in a register. -/
theorem passes_keepTop : Passes lab (straight [.stm, .ltm]) [] (h + 1) (h + 1) :=
  passes_straight rfl

theorem Binding.passes_linkCode (b : Binding) : Passes lab b.linkCode [] h (h + 1) :=
  (passes_lfp.append (passes_climbLinks b.hops)).append passes_keepTop

theorem Binding.passes_targetCode (b : Binding) : Passes lab b.targetCode [] h (h + 1) := by
  have hcopy : Passes lab (straight [.ltm]) [] h (h + 1) := passes_straight rfl
  have hmethod :
      Passes lab (if b.entry.isMethod then straight [.lw] else []) [] (h + 1) (h + 1) := by
    split
    · exact passes_straight rfl
    · exact .nil
  exact (hcopy.append hmethod).append (passes_loadAt _)

theorem MethodBinding.passes_linkCode (b : MethodBinding) : Passes lab b.linkCode [] h (h + 1) :=
  ((passes_lfp.append (passes_climbLinks b.hops)).append (passes_loadAt _)).append passes_keepTop

theorem MethodBinding.passes_targetCode (b : MethodBinding) :
    Passes lab b.targetCode [] h (h + 1) :=
  (passes_straight (h := h) rfl).append (passes_loadAt _)

theorem passes_call {args link target : List Instruction} {count : Nat}
    (hargs : Passes lab args calls (h + 1) (h + 1 + count))
    (hlink : Passes lab link [] (h + 1 + count) (h + 1 + count + 1))
    (htarget : Passes lab target [] (h + 1 + count + 1) (h + 1 + count + 1 + 1)) :
    Passes lab (straight [.lfp] ++ args ++ link ++ target ++ straight [.js]) (calls ++ [count]) h
      (h + 1) := by
  have hjs : Passes lab (straight [.js]) [count] (h + 1 + count + 1 + 1) (h + 1) := by
    rw [show h + 1 + count + 1 + 1 = h + count + 3 by omega]
    exact passes_js count
  exact ((((passes_lfp.append hargs).append hlink).append htarget).append hjs).of_calls (by simp)

end Passes

/-! ### Labels and call sites of expressions -/

mutual

/-- The heights at the labels of an expression's code, in the order of their numbers, if the code
is entered at height `h`. -/
def Expr.labelHeights : Nat → Expr → List Nat
  | _, .int _ _ | _, .bool _ _ | _, .null _ | _, .ident _ _ _ => []
  | h, .arith _ _ l r => l.labelHeights h ++ r.labelHeights (h + 1)
  | h, .compare _ .eq l r | h, .compare _ .le l r =>
    l.labelHeights h ++ r.labelHeights (h + 1) ++ [h, h + 1]
  | h, .compare _ .ge l r => r.labelHeights h ++ l.labelHeights (h + 1) ++ [h, h + 1]
  | h, .logic _ .and l r => [h, h + 1] ++ l.labelHeights h ++ r.labelHeights h
  | h, .logic _ .or l r => [h, h, h, h + 1] ++ l.labelHeights h ++ r.labelHeights h
  | h, .not _ e => e.labelHeights h ++ [h, h + 1]
  | h, .cond _ c t f => [h, h + 1] ++ c.labelHeights h ++ f.labelHeights h ++ t.labelHeights h
  | h, .print _ e => e.labelHeights h
  | h, .call _ _ args _ | h, .send _ _ _ args _ => Expr.labelHeightsReversed (h + 1) args
  | h, .new _ _ args _ => Expr.labelHeightsAll h args

/-- `Expr.labelHeights` for several expressions, from the first to the last. -/
def Expr.labelHeightsAll : Nat → List Expr → List Nat
  | _, [] => []
  | h, e :: es => e.labelHeights h ++ Expr.labelHeightsAll (h + 1) es

/-- `Expr.labelHeights` for several expressions, from the last to the first. -/
def Expr.labelHeightsReversed : Nat → List Expr → List Nat
  | _, [] => []
  | h, e :: es => Expr.labelHeightsReversed h es ++ e.labelHeights (h + es.length)

end

mutual

/-- The numbers of arguments at the call sites in an expression, in the order of their jumps. -/
def Expr.calls : Expr → List Nat
  | .int _ _ | .bool _ _ | .null _ | .ident _ _ _ => []
  | .arith _ _ l r | .logic _ _ l r | .compare _ .eq l r | .compare _ .le l r => l.calls ++ r.calls
  | .compare _ .ge l r => r.calls ++ l.calls
  | .not _ e | .print _ e => e.calls
  | .cond _ c t f => c.calls ++ f.calls ++ t.calls
  | .call _ _ args _ | .send _ _ _ args _ => Expr.callsReversed args ++ [args.length]
  | .new _ _ args _ => Expr.callsAll args

/-- `Expr.calls` for several expressions, from the first to the last. -/
def Expr.callsAll : List Expr → List Nat
  | [] => []
  | e :: es => e.calls ++ Expr.callsAll es

/-- `Expr.calls` for several expressions, from the last to the first. -/
def Expr.callsReversed : List Expr → List Nat
  | [] => []
  | e :: es => Expr.callsReversed es ++ e.calls

end

theorem Expr.length_labelHeightsAll {es : List Expr}
    (hs : ∀ e ∈ es, ∀ h, (e.labelHeights h).length = e.labelCount) (h : Nat) :
    (Expr.labelHeightsAll h es).length = Expr.labelCountAll es := by
  induction es generalizing h with
  | nil => rfl
  | cons e es ih =>
    rw [List.forall_mem_cons] at hs
    rw [Expr.labelHeightsAll, List.length_append, hs.1, ih hs.2, Expr.labelCountAll]

theorem Expr.labelHeightsAll_append (h : Nat) (es es' : List Expr) :
    Expr.labelHeightsAll h (es ++ es') =
      Expr.labelHeightsAll h es ++ Expr.labelHeightsAll (h + es.length) es' := by
  induction es generalizing h with
  | nil => rfl
  | cons e es ih => simp [Expr.labelHeightsAll, ih, Nat.add_assoc, Nat.add_comm 1]

theorem Expr.labelHeightsReversed_eq (h : Nat) (es : List Expr) :
    Expr.labelHeightsReversed h es = Expr.labelHeightsAll h es.reverse := by
  induction es with
  | nil => rfl
  | cons e es ih =>
    simp [Expr.labelHeightsReversed, ih, Expr.labelHeightsAll_append, Expr.labelHeightsAll]

theorem Expr.callsAll_append (es es' : List Expr) :
    Expr.callsAll (es ++ es') = Expr.callsAll es ++ Expr.callsAll es' := by
  induction es with
  | nil => rfl
  | cons e es ih => simp [Expr.callsAll, ih]

theorem Expr.callsReversed_eq (es : List Expr) :
    Expr.callsReversed es = Expr.callsAll es.reverse := by
  induction es with
  | nil => rfl
  | cons e es ih => simp [Expr.callsReversed, ih, Expr.callsAll_append, Expr.callsAll]

theorem Expr.length_labelHeightsReversed {es : List Expr}
    (hs : ∀ e ∈ es, ∀ h, (e.labelHeights h).length = e.labelCount) (h : Nat) :
    (Expr.labelHeightsReversed h es).length = Expr.labelCountAll es := by
  rw [Expr.labelHeightsReversed_eq, ← Expr.labelCountAll_reverse]
  exact Expr.length_labelHeightsAll (fun e he => hs e (List.mem_reverse.1 he)) h

@[simp] theorem Expr.length_labelHeights (e : Expr) (h : Nat) :
    (e.labelHeights h).length = e.labelCount := by
  induction e using Expr.ind generalizing h with
  | int | bool | null | ident => simp [Expr.labelHeights, Expr.labelCount]
  | arith line op l r hl hr => simp [Expr.labelHeights, Expr.labelCount, hl, hr]
  | compare line op l r hl hr =>
    cases op <;> simp [Expr.labelHeights, Expr.labelCount, hl, hr] <;> omega
  | logic line op l r hl hr =>
    cases op <;> simp [Expr.labelHeights, Expr.labelCount, hl, hr]
  | not line e he | print line e he => simp [Expr.labelHeights, Expr.labelCount, he]
  | cond line c t f hc ht hf =>
    simp [Expr.labelHeights, Expr.labelCount, hc, ht, hf]
    omega
  | call line name args b hargs | send line receiver method args b hargs =>
    simp [Expr.labelHeights, Expr.labelCount, Expr.length_labelHeightsReversed hargs]
  | new line cls args entry hargs =>
    simp [Expr.labelHeights, Expr.labelCount, Expr.length_labelHeightsAll hargs]

/-- The labels from number `n` on have the given heights. -/
def Fits (lab : Label → Nat) : Nat → List Nat → Prop
  | _, [] => True
  | n, h :: hs => lab (branchLabel n) = h ∧ Fits lab (n + 1) hs

theorem fits_append {lab : Label → Nat} {n : Nat} {hs hs' : List Nat} :
    Fits lab n (hs ++ hs') ↔ Fits lab n hs ∧ Fits lab (n + hs.length) hs' := by
  induction hs generalizing n with
  | nil => simp [Fits]
  | cons h hs ih =>
    rw [List.cons_append, Fits, Fits, ih, and_assoc, List.length_cons, Nat.add_right_comm n 1,
      Nat.add_assoc n]

theorem Fits.congr {lab lab' : Label → Nat} {n : Nat} {hs : List Nat} (h : Fits lab n hs)
    (hsame : ∀ i, n ≤ i → lab' (branchLabel i) = lab (branchLabel i)) : Fits lab' n hs := by
  induction hs generalizing n with
  | nil => trivial
  | cons height hs ih =>
    exact ⟨(hsame n (Nat.le_refl n)).trans h.1, ih h.2 fun i hi => hsame i (by omega)⟩

/-- The code of an expression leaves one word, if labels have the heights that they should have. -/
def Expr.LeavesOne (e : Expr) : Prop :=
  ∀ {size n h : Nat} {lab : Label → Nat} {code : List Instruction}, e.emit size n = .ok code →
    Fits lab n (e.labelHeights h) → Passes lab code e.calls h (h + 1)

section Several

variable {size n h : Nat} {lab : Label → Nat} {code : List Instruction} {es : List Expr}
  (hs : ∀ e ∈ es, e.LeavesOne)
include hs

theorem Expr.passes_all (hemit : Expr.emitAll size n es = .ok code)
    (hfits : Fits lab n (Expr.labelHeightsAll h es)) :
    Passes lab code (Expr.callsAll es) h (h + es.length) := by
  induction es generalizing n h code with
  | nil =>
    cases hemit
    exact .nil
  | cons e es ih =>
    rw [List.forall_mem_cons] at hs
    simp only [Expr.emitAll, bind_ok_iff] at hemit
    obtain ⟨first, h₁, rest, h₂, hcode⟩ := hemit
    cases hcode
    rw [Expr.labelHeightsAll, fits_append, Expr.length_labelHeights] at hfits
    have hrest := ih hs.2 h₂ hfits.2
    exact (hs.1 h₁ hfits.1).append (hrest.of_heights rfl (Nat.add_right_comm h 1 _))

theorem Expr.passes_reversed (hemit : Expr.emitReversed size n es = .ok code)
    (hfits : Fits lab n (Expr.labelHeightsReversed h es)) :
    Passes lab code (Expr.callsReversed es) h (h + es.length) := by
  rw [Expr.emitReversed_eq] at hemit
  rw [Expr.labelHeightsReversed_eq] at hfits
  rw [Expr.callsReversed_eq, ← List.length_reverse]
  exact Expr.passes_all (fun e he => hs e (List.mem_reverse.1 he)) hemit hfits

end Several

theorem Expr.leavesOne (e : Expr) : e.LeavesOne := by
  induction e using Expr.ind with
  | int line v | bool line v | null line =>
    intro size n h lab code hemit hfits
    cases hemit
    exact passes_straight rfl
  | arith line op l r hl hr =>
    intro size n h lab code hemit hfits
    simp only [Expr.emit, bind_ok_iff] at hemit
    obtain ⟨left, h₁, right, h₂, hcode⟩ := hemit
    cases hcode
    simp only [Expr.labelHeights, fits_append, Expr.length_labelHeights] at hfits
    have hop : Passes lab (straight [op.op]) [] (h + 2) (h + 1) := by
      cases op <;> exact passes_straight rfl
    exact (((hl h₁ hfits.1).append (hr h₂ hfits.2)).append hop).of_calls (by simp [Expr.calls])
  | compare line op l r hl hr =>
    intro size n h lab code hemit hfits
    cases op <;> simp only [Expr.emit, bind_ok_iff] at hemit <;>
      simp only [Expr.labelHeights, fits_append, Expr.length_labelHeights, List.length_append,
        ← Nat.add_assoc, Fits] at hfits
    case eq =>
      obtain ⟨left, h₁, right, h₂, hcode⟩ := hemit
      cases hcode
      obtain ⟨⟨hfl, hfr⟩, h₀, h₁', -⟩ := hfits
      exact (((hl h₁ hfl).append (hr h₂ hfr)).append
        (passes_branchValue (.inl rfl) h₀ h₁')).of_calls (by simp [Expr.calls])
    case le =>
      obtain ⟨left, h₁, right, h₂, hcode⟩ := hemit
      cases hcode
      obtain ⟨⟨hfl, hfr⟩, h₀, h₁', -⟩ := hfits
      exact (((hl h₁ hfl).append (hr h₂ hfr)).append
        (passes_branchValue (.inr rfl) h₀ h₁')).of_calls (by simp [Expr.calls])
    case ge =>
      -- the right operand comes first
      obtain ⟨right, h₁, left, h₂, hcode⟩ := hemit
      cases hcode
      obtain ⟨⟨hfr, hfl⟩, h₀, h₁', -⟩ := hfits
      have hsub : Passes lab (straight [.sub, .push 0]) [] (h + 2) (h + 2) := passes_straight rfl
      exact ((((hr h₁ hfr).append (hl h₂ hfl)).append hsub).append
        (passes_branchValue (.inr rfl) h₀ h₁')).of_calls (by simp [Expr.calls])
  | logic line op l r hl hr =>
    intro size n h lab code hemit hfits
    cases op <;> simp only [Expr.emit, bind_ok_iff] at hemit <;>
      simp only [Expr.labelHeights, fits_append, Expr.length_labelHeights, List.length_append,
        ← Nat.add_assoc, Fits] at hfits
    case and =>
      obtain ⟨left, h₁, right, h₂, hcode⟩ := hemit
      cases hcode
      obtain ⟨⟨⟨h₀, h₁', -⟩, hfl⟩, hfr⟩ := hfits
      exact (passes_andCode (hl h₁ hfl) (hr h₂ hfr) h₀ h₁').of_calls (by simp [Expr.calls])
    case or =>
      obtain ⟨left, h₁, right, h₂, hcode⟩ := hemit
      cases hcode
      obtain ⟨⟨⟨h₀, h₁', h₂', h₃, -⟩, hfl⟩, hfr⟩ := hfits
      exact (passes_orCode (hl h₁ hfl) (hr h₂ hfr) h₀ h₁' h₂' h₃).of_calls (by simp [Expr.calls])
  | not line e he =>
    intro size n h lab code hemit hfits
    simp only [Expr.emit, bind_ok_iff] at hemit
    obtain ⟨operand, h₁, hcode⟩ := hemit
    cases hcode
    simp only [Expr.labelHeights, fits_append, Expr.length_labelHeights, Fits] at hfits
    obtain ⟨hfe, h₀, h₁', -⟩ := hfits
    have hpush : Passes lab (straight [.push 0]) [] (h + 1) (h + 2) := passes_straight rfl
    exact (((he h₁ hfe).append hpush).append
      (passes_branchValue (.inl rfl) h₀ h₁')).of_calls (by simp [Expr.calls])
  | cond line c t f hc ht hf =>
    intro size n h lab code hemit hfits
    simp only [Expr.emit, bind_ok_iff] at hemit
    obtain ⟨test, h₁, no, h₂, yes, h₃, hcode⟩ := hemit
    cases hcode
    simp only [Expr.labelHeights, fits_append, Expr.length_labelHeights, List.length_append,
      ← Nat.add_assoc, Fits] at hfits
    obtain ⟨⟨⟨⟨h₀, h₁', -⟩, hfc⟩, hff⟩, hft⟩ := hfits
    exact (passes_condCode (hc h₁ hfc) (hf h₂ hff) (ht h₃ hft) h₀ h₁').of_calls
      (by simp [Expr.calls])
  | print line e he =>
    intro size n h lab code hemit hfits
    simp only [Expr.emit, bind_ok_iff] at hemit
    obtain ⟨operand, h₁, hcode⟩ := hemit
    cases hcode
    have hprint : Passes lab (straight [.print]) [] (h + 1) (h + 1) := passes_straight rfl
    exact ((he h₁ hfits).append hprint).of_calls (by simp [Expr.calls])
  | ident line name b =>
    intro size n h lab code hemit hfits
    simp only [Expr.emit, bind_ok_iff] at hemit
    obtain ⟨b', -, hcode⟩ := hemit
    cases hcode
    exact (passes_lfp.append (passes_climbLinks b'.hops)).append (passes_loadAt _)
  | call line name args b hargs =>
    intro size n h lab code hemit hfits
    simp only [Expr.emit, bind_ok_iff] at hemit
    obtain ⟨b', -, words, h₂, hcode⟩ := hemit
    cases hcode
    rw [callCode_eq]
    exact passes_call (Expr.passes_reversed hargs h₂ hfits) b'.passes_linkCode b'.passes_targetCode
  | send line receiver method args b hargs =>
    intro size n h lab code hemit hfits
    simp only [Expr.emit, bind_ok_iff] at hemit
    obtain ⟨b', -, words, h₂, hcode⟩ := hemit
    cases hcode
    rw [sendCode_eq]
    exact passes_call (Expr.passes_reversed hargs h₂ hfits) b'.passes_linkCode b'.passes_targetCode
  | new line cls args entry hargs =>
    intro size n h lab code hemit hfits
    simp only [Expr.emit, bind_ok_iff] at hemit
    obtain ⟨entry', -, words, h₂, hcode⟩ := hemit
    cases hcode
    exact ((Expr.passes_all hargs h₂ hfits).append (passes_objectCode _ _ _)).of_calls
      (by simp [Expr.calls])

/-! ### Rising code -/

theorem Passes.steady {lab : Label → Nat} {code : List Instruction} {calls : List Nat} {h k : Nat}
    (hp : Passes lab code calls h k) (hinside : StaysInside code) :
    Steady calls code h k := by
  obtain ⟨seen, -, hthrough⟩ := hp [] []
  rw [List.append_nil] at hthrough
  -- one more call is not used up, so that there are exactly as many jumps as calls
  obtain ⟨seen', -, hthrough'⟩ := hp [] [0]
  have hjumps := congrArg List.length (Scan.calls_through hthrough')
  simp only [List.length_drop, List.length_append, List.length_singleton] at hjumps
  exact Scan.steady hthrough rfl (by omega) hinside

/-- Labels can be given any heights. -/
theorem exists_fits (n : Nat) (hs : List Nat) (k b : Nat) :
    ∃ lab, Fits lab n hs ∧ lab (blockLabel k) = b := by
  induction hs generalizing n with
  | nil => exact ⟨fun _ => b, trivial, rfl⟩
  | cons h hs ih =>
    obtain ⟨lab, hfits, hblock⟩ := ih (n + 1)
    refine ⟨fun l => if l = branchLabel n then h else lab l, ⟨if_pos rfl, hfits.congr ?_⟩, ?_⟩
    · -- the other labels have higher numbers
      intro i hi
      rw [if_neg fun heq => ?_]
      have := branchLabel_injective heq
      omega
    · exact (if_neg (branchLabel_ne_blockLabel n k).symm).trans hblock

/-- Branches stay inside a sequence if they do so inside its parts. -/
theorem StaysInside.append {code code' : List Instruction} (h : StaysInside code)
    (h' : StaysInside code') : StaysInside (code ++ code') := by
  have hbranches : branches (code ++ code') = branches code ++ branches code' :=
    List.filterMap_append
  rw [StaysInside, hbranches]
  exact List.forall_mem_append.2 ⟨fun l hl => List.mem_append_left _ (h l hl),
    fun l hl => List.mem_append_right _ (h' l hl)⟩

theorem staysInside_of_branches_eq_nil {code : List Instruction} (h : branches code = []) :
    StaysInside code := by
  intro l hl
  rw [h] at hl
  cases hl

theorem staysInside_of_forall {code : List Instruction}
    (h : ∀ o, .op o ∈ code → o.branchTarget? = none) : StaysInside code := by
  refine staysInside_of_branches_eq_nil (List.filterMap_eq_nil_iff.2 fun i hi => ?_)
  cases i with
  | op o => exact h o hi
  | label l => rfl

theorem branches_subset_targets (code : List Instruction) :
    branches code ⊆ Listing.targets code := by
  intro l hl
  obtain ⟨i, hi, hl⟩ := List.mem_filterMap.1 hl
  refine List.mem_filterMap.2 ⟨i, hi, ?_⟩
  cases i with
  | label l' => cases hl
  | op o => cases o <;> simp_all [Op.branchTarget?, Instruction.target?, Op.target?]

theorem Expr.staysInside {size n : Nat} {e : Expr} {code : List Instruction}
    (hemit : e.emit size n = .ok code) : StaysInside code := by
  intro l hl
  have hcode := e.outlined _ _ _ hemit size n
  rw [hemit, Except.ok.injEq] at hcode
  have htarget := branches_subset_targets code hl
  rw [hcode, targets_erase] at htarget
  rw [← mem_labels, hcode, labels_erase]
  exact e.targets_subset n htarget

/-- **The code of an expression leaves one word**, whatever its names are bound to. -/
theorem Expr.rises {size n : Nat} {e : Expr} {code : List Instruction}
    (hemit : e.emit size n = .ok code) : Rises e.calls code := by
  obtain ⟨lab, hfits, -⟩ := exists_fits n (e.labelHeights 0) 0 0
  exact (e.leavesOne hemit hfits).steady (Expr.staysInside hemit)

/-! ### Declarations -/

/-- The numbers of arguments at the call sites in the code that stands in the place of a
declaration. -/
def Decl.calls : Decl → List Nat
  | .var v => v.init.calls
  | .fn _ => []

/-- `Decl.calls` for several declarations. -/
def Decl.callsAll (ds : List Decl) : List Nat := ds.flatMap Decl.calls

/-- The heights at the labels that a declaration takes.  Those of a function are in its blocks, and
any will do. -/
def Decl.labelHeights (h : Nat) : Decl → List Nat
  | .var v => v.init.labelHeights h
  | .fn f => List.replicate f.labelCount 0

/-- `Decl.labelHeights` for several declarations, of which each leaves one word. -/
def Decl.labelHeightsAll : Nat → List Decl → List Nat
  | _, [] => []
  | h, d :: ds => d.labelHeights h ++ Decl.labelHeightsAll (h + 1) ds

@[simp] theorem Decl.length_labelHeights (d : Decl) (h : Nat) :
    (d.labelHeights h).length = d.labelCount := by
  cases d with
  | var v => exact v.init.length_labelHeights h
  | fn f => exact List.length_replicate

@[simp] theorem Decl.length_labelHeightsAll (ds : List Decl) (h : Nat) :
    (Decl.labelHeightsAll h ds).length = Decl.labelCountAll ds := by
  induction ds generalizing h with
  | nil => rfl
  | cons d ds ih =>
    rw [Decl.labelHeightsAll, List.length_append, ih, Decl.length_labelHeights, Decl.labelCountAll]

section Declarations

variable {size n k h : Nat} {lab : Label → Nat} {code : Fragment}

theorem Decl.passes {d : Decl} (hemit : d.emit size n k = .ok code)
    (hfits : Fits lab n (d.labelHeights h)) : Passes lab code.inline d.calls h (h + 1) := by
  cases d with
  | var v =>
    simp only [Decl.emit, bind_ok_iff] at hemit
    obtain ⟨init, h₁, hcode⟩ := hemit
    cases hcode
    exact v.init.leavesOne h₁ hfits
  | fn f =>
    simp only [Decl.emit, bind_ok_iff] at hemit
    obtain ⟨blocks, -, hcode⟩ := hemit
    cases hcode
    exact passes_straight rfl

theorem Decl.passes_all {ds : List Decl} (hemit : Decl.emitAll size n k ds = .ok code)
    (hfits : Fits lab n (Decl.labelHeightsAll h ds)) :
    Passes lab code.inline (Decl.callsAll ds) h (h + ds.length) := by
  induction ds generalizing n k h code with
  | nil =>
    cases hemit
    exact .nil
  | cons d ds ih =>
    simp only [Decl.emitAll, bind_ok_iff] at hemit
    obtain ⟨first, h₁, rest, h₂, hcode⟩ := hemit
    cases hcode
    rw [Decl.labelHeightsAll, fits_append, Decl.length_labelHeights] at hfits
    have hrest := ih h₂ hfits.2
    exact (Decl.passes h₁ hfits.1).append (hrest.of_heights rfl (Nat.add_right_comm h 1 _))

theorem Decl.staysInside {d : Decl} (hemit : d.emit size n k = .ok code) :
    StaysInside code.inline := by
  cases d with
  | var v =>
    simp only [Decl.emit, bind_ok_iff] at hemit
    obtain ⟨init, h₁, hcode⟩ := hemit
    cases hcode
    exact Expr.staysInside h₁
  | fn f =>
    simp only [Decl.emit, bind_ok_iff] at hemit
    obtain ⟨blocks, -, hcode⟩ := hemit
    cases hcode
    exact staysInside_of_branches_eq_nil rfl

theorem Decl.staysInside_all {ds : List Decl} (hemit : Decl.emitAll size n k ds = .ok code) :
    StaysInside code.inline := by
  induction ds generalizing n k code with
  | nil =>
    cases hemit
    exact staysInside_of_branches_eq_nil rfl
  | cons d ds ih =>
    simp only [Decl.emitAll, bind_ok_iff] at hemit
    obtain ⟨first, h₁, rest, h₂, hcode⟩ := hemit
    cases hcode
    exact (Decl.staysInside h₁).append (ih h₂)

/-- The code of a declaration leaves one word. -/
theorem Decl.rises {d : Decl} (hemit : d.emit size n k = .ok code) : Rises d.calls code.inline := by
  obtain ⟨lab, hfits, -⟩ := exists_fits n (d.labelHeights 0) 0 0
  exact (Decl.passes hemit hfits).steady (Decl.staysInside hemit)

/-! ### Classes -/

variable {tables : NameMap DispatchTable} {table : DispatchTable}

theorem ClassDecl.passes {c : ClassDecl} (hemit : c.emit size n k tables = .ok (table, code)) :
    Passes lab code.inline [] h (h + 1) := by
  simp only [ClassDecl.emit, bind_ok_iff] at hemit
  obtain ⟨inherited, -, methods, -, hcode⟩ := hemit
  cases hcode
  exact passes_tableEmit _

theorem ClassDecl.staysInside {c : ClassDecl} (hemit : c.emit size n k tables = .ok (table, code)) :
    StaysInside code.inline := by
  simp only [ClassDecl.emit, bind_ok_iff] at hemit
  obtain ⟨inherited, -, methods, -, hcode⟩ := hemit
  cases hcode
  refine staysInside_of_forall fun o ho => ?_
  simp only [DispatchTable.emit, moveToHeap, advanceHeap, straight, List.map_cons, List.map_nil,
    List.mem_append, List.mem_flatMap, List.mem_cons, List.not_mem_nil, Instruction.op.injEq,
    or_false] at ho
  grind [Op.branchTarget?]

/-- The code of a class leaves one word. -/
theorem ClassDecl.rises {c : ClassDecl} (hemit : c.emit size n k tables = .ok (table, code)) :
    Rises [] code.inline := by
  have hpasses : Passes (fun _ => 0) code.inline [] 0 1 := ClassDecl.passes hemit
  exact hpasses.steady (ClassDecl.staysInside hemit)

theorem ClassDecl.passes_all {cs : List ClassDecl}
    (hemit : ClassDecl.emitAll size n k tables cs = .ok code) :
    Passes lab code.inline [] h (h + cs.length) := by
  induction cs generalizing n k tables h code with
  | nil =>
    cases hemit
    exact .nil
  | cons c cs ih =>
    simp only [ClassDecl.emitAll, bind_ok_iff] at hemit
    obtain ⟨⟨table, first⟩, h₁, rest, h₂, hcode⟩ := hemit
    cases hcode
    have hrest := ih h₂ (h := h + 1)
    exact (ClassDecl.passes h₁).append (hrest.of_heights rfl (Nat.add_right_comm h 1 _))

theorem ClassDecl.staysInside_all {cs : List ClassDecl}
    (hemit : ClassDecl.emitAll size n k tables cs = .ok code) : StaysInside code.inline := by
  induction cs generalizing n k tables code with
  | nil =>
    cases hemit
    exact staysInside_of_branches_eq_nil rfl
  | cons c cs ih =>
    simp only [ClassDecl.emitAll, bind_ok_iff] at hemit
    obtain ⟨⟨table, first⟩, h₁, rest, h₂, hcode⟩ := hemit
    cases hcode
    exact (ClassDecl.staysInside h₁).append (ih h₂)

end Declarations

end ObjectLang
