import ObjectLang.Emission.Program

/-!
# Outlines of code

Emitted code depends on the size of memory in one place only: the construction of an object pushes
that size to find the class directory.  An outline is the code with this push left open, and with
two more kinds of operations marked, since they are what a run can be followed by: the jump of a
method call and the store that completes an object.

* `Expr.outline`, `Routine.outline`, `Program.outline` mirror the emission of code;
* `Piece.erase` forgets the marks and fills in the size of memory;
* `Program.emit_outline` says that the two together are emission.
-/

namespace ObjectLang

/-- A sequence of two steps succeeds if both do. -/
theorem bind_ok_iff {ε α β : Type} {x : Except ε α} {f : α → Except ε β} {b : β} :
    x >>= f = .ok b ↔ ∃ a, x = .ok a ∧ f a = .ok b := by
  cases x with
  | error e => simp [bind, Except.bind]
  | ok a => simp [bind, Except.bind]

/-- Where a method call finds its object, and the method it calls. -/
structure MethodSite where
  /-- Links from the frame of the call. -/
  hops : Nat
  /-- The variable that holds the object; without one, the last link is the object itself. -/
  offset : Option Int
  method : String
deriving DecidableEq

/-- An instruction, or an operation with a role of its own. -/
inductive Piece where
  | instr (i : Instruction)
  /-- Push the size of memory. -/
  | memoryEnd
  /-- The jump of a method call. -/
  | dispatch (site : MethodSite)
  /-- The store that completes an object of a class. -/
  | construct (cls : String)
deriving DecidableEq

namespace Piece

/-- The instruction for a machine with the given size of memory. -/
def erase (memorySize : Nat) : Piece → Instruction
  | instr i => i
  | memoryEnd => .op (.push (Int64.ofNat memorySize))
  | dispatch _ => .op .js
  | construct _ => .op .sw

/-- Instructions without a role of their own. -/
def plain (code : List Instruction) : List Piece := code.map instr

@[simp] theorem map_erase_plain (memorySize : Nat) (code : List Instruction) :
    (plain code).map (erase memorySize) = code := by
  simp only [plain, List.map_map]
  exact List.map_id' code

end Piece

open Piece (plain)

/-! ### Expressions -/

/-- The outline of `callCode`. -/
def callOutline (name : String) (b : Binding) (args : List Piece) : List Piece :=
  plain (straight [.lfp]) ++ args ++ plain (straight [.lfp] ++ climbLinks b.hops ++ copyTop) ++
    if b.entry.isMethod then
      plain (straight [.lw] ++ loadAt b.entry.offset) ++ [.dispatch ⟨b.hops, none, name⟩]
    else plain (loadAt b.entry.offset ++ straight [.js])

/-- The outline of `sendCode`. -/
def sendOutline (method : String) (b : MethodBinding) (args : List Piece) : List Piece :=
  plain (straight [.lfp]) ++ args ++
    plain (straight [.lfp] ++ climbLinks b.hops ++ loadAt b.receiver.offset ++ copyTop ++
      straight [.lw] ++ loadAt b.method.offset) ++
    [.dispatch ⟨b.hops, some b.receiver.offset, method⟩]

/-- The outline of `objectCode`. -/
def objectOutline (cls : String) (entry : Entry) (count : Nat) : List Piece :=
  plain (List.replicate count moveToHeap).flatten ++ [.memoryEnd] ++
    plain (straight [.push (Int64.ofInt entry.offset), .add, .lw, .lhp]) ++ [.construct cls] ++
    plain (straight [.lhp] ++ advanceHeap)

mutual

/-- The outline of the code of an expression, with labels from number `n`.  Uses of names that are
not bound have none. -/
def Expr.outline : Nat → Expr → List Piece
  | _, .int _ value => plain (straight [.push value])
  | _, .bool _ value => plain (straight [.push (if value then 1 else 0)])
  | _, .null _ => plain (straight [.push (-1)])
  | n, .arith _ op l r =>
    l.outline n ++ r.outline (n + l.labelCount) ++ plain (straight [op.op])
  | n, .compare _ .eq l r =>
    l.outline n ++ r.outline (n + l.labelCount) ++
      plain (branchValue .beq (n + l.labelCount + r.labelCount))
  | n, .compare _ .le l r =>
    l.outline n ++ r.outline (n + l.labelCount) ++
      plain (branchValue .bleq (n + l.labelCount + r.labelCount))
  | n, .compare _ .ge l r =>
    r.outline n ++ l.outline (n + r.labelCount) ++
      plain (straight [.sub, .push 0] ++ branchValue .bleq (n + r.labelCount + l.labelCount))
  | n, .logic _ .and l r =>
    l.outline (n + 2) ++ plain (straight [.push 0, .beq (branchLabel n)]) ++
      r.outline (n + 2 + l.labelCount) ++
      plain (straight [.push 0, .beq (branchLabel n), .push 1, .b (branchLabel (n + 1))] ++
        [.label (branchLabel n)] ++ straight [.push 0] ++ [.label (branchLabel (n + 1))])
  | n, .logic _ .or l r =>
    l.outline (n + 4) ++
      plain (straight [.push 0, .beq (branchLabel n), .b (branchLabel (n + 1))] ++
        [.label (branchLabel n)]) ++
      r.outline (n + 4 + l.labelCount) ++
      plain (straight [.push 0, .beq (branchLabel (n + 2))] ++
        [.label (branchLabel (n + 1))] ++ straight [.push 1, .b (branchLabel (n + 3))] ++
        [.label (branchLabel (n + 2))] ++ straight [.push 0] ++ [.label (branchLabel (n + 3))])
  | n, .not _ e =>
    e.outline n ++ plain (straight [.push 0] ++ branchValue .beq (n + e.labelCount))
  | n, .cond _ c t f =>
    c.outline (n + 2) ++ plain (straight [.push 1, .beq (branchLabel n)]) ++
      f.outline (n + 2 + c.labelCount) ++
      plain (straight [.b (branchLabel (n + 1))] ++ [.label (branchLabel n)]) ++
      t.outline (n + 2 + c.labelCount + f.labelCount) ++ plain [.label (branchLabel (n + 1))]
  | n, .print _ e => e.outline n ++ plain (straight [.print])
  | _, .ident _ _ b => b.elim [] fun b => plain (identCode b)
  | n, .call _ name args b => b.elim [] fun b => callOutline name b (Expr.outlineReversed n args)
  | n, .send _ _ method args b =>
    b.elim [] fun b => sendOutline method b (Expr.outlineReversed n args)
  | n, .new _ cls args entry =>
    entry.elim [] fun entry => Expr.outlineAll n args ++ objectOutline cls entry args.length

/-- The outline of several expressions, from the first to the last. -/
def Expr.outlineAll : Nat → List Expr → List Piece
  | _, [] => []
  | n, e :: es => e.outline n ++ Expr.outlineAll (n + e.labelCount) es

/-- The outline of several expressions, from the last to the first. -/
def Expr.outlineReversed : Nat → List Expr → List Piece
  | _, [] => []
  | n, e :: es => Expr.outlineReversed n es ++ e.outline (n + Expr.labelCountAll es)

end

namespace LogicOp

/-- Number of labels in the code of a connective, those of the operands apart. -/
def labelCount : LogicOp → Nat
  | and => 2
  | or => 4

/-- The code between the operands: go to the second one unless the first one decides. -/
def test (n : Nat) : LogicOp → List Instruction
  | and => straight [.push 0, .beq (branchLabel n)]
  | or =>
    straight [.push 0, .beq (branchLabel n), .b (branchLabel (n + 1))] ++ [.label (branchLabel n)]

/-- The code after the operands. -/
def finish (n : Nat) : LogicOp → List Instruction
  | and =>
    straight [.push 0, .beq (branchLabel n), .push 1, .b (branchLabel (n + 1))] ++
      [.label (branchLabel n)] ++ straight [.push 0] ++ [.label (branchLabel (n + 1))]
  | or =>
    straight [.push 0, .beq (branchLabel (n + 2))] ++
      [.label (branchLabel (n + 1))] ++ straight [.push 1, .b (branchLabel (n + 3))] ++
      [.label (branchLabel (n + 2))] ++ straight [.push 0] ++ [.label (branchLabel (n + 3))]

end LogicOp

/-- The code of both connectives is made in the same way. -/
theorem Expr.outline_logic (n : Nat) (line : SourceLine) (op : LogicOp) (l r : Expr) :
    (Expr.logic line op l r).outline n = l.outline (n + op.labelCount) ++ plain (op.test n) ++
      r.outline (n + op.labelCount + l.labelCount) ++ plain (op.finish n) := by
  cases op <;> rw [Expr.outline] <;> rfl

/-! ### From the last to the first -/

namespace Expr

theorem labelCountAll_append (es es' : List Expr) :
    labelCountAll (es ++ es') = labelCountAll es + labelCountAll es' := by
  induction es with
  | nil => exact (Nat.zero_add _).symm
  | cons e es ih => rw [List.cons_append, labelCountAll, ih, labelCountAll, Nat.add_assoc]

theorem labelCountAll_reverse (es : List Expr) : labelCountAll es.reverse = labelCountAll es := by
  induction es with
  | nil => rfl
  | cons e es ih => simp [labelCountAll_append, ih, labelCountAll, Nat.add_comm]

theorem emitAll_append (size n : Nat) (es es' : List Expr) :
    emitAll size n (es ++ es') = do
      let first ← emitAll size n es
      let rest ← emitAll size (n + labelCountAll es) es'
      return first ++ rest := by
  induction es generalizing n with
  | nil =>
    cases hrest : emitAll size n es' <;>
      simp [emitAll, labelCountAll, hrest, bind, Except.bind, pure, Except.pure]
  | cons e es ih =>
    simp only [List.cons_append, emitAll, ih, labelCountAll, ← Nat.add_assoc, bind_assoc,
      pure_bind, List.append_assoc]

theorem emitAll_singleton (size n : Nat) (e : Expr) : emitAll size n [e] = e.emit size n := by
  cases he : e.emit size n <;> simp [emitAll, he, bind, Except.bind, pure, Except.pure]

theorem outlineAll_append (n : Nat) (es es' : List Expr) :
    outlineAll n (es ++ es') = outlineAll n es ++ outlineAll (n + labelCountAll es) es' := by
  induction es generalizing n with
  | nil => simp [outlineAll, labelCountAll]
  | cons e es ih => simp [outlineAll, ih, labelCountAll, Nat.add_assoc]

/-- The order is the only difference. -/
theorem emitReversed_eq (size n : Nat) (es : List Expr) :
    emitReversed size n es = emitAll size n es.reverse := by
  induction es with
  | nil => rfl
  | cons e es ih =>
    rw [emitReversed, ih, List.reverse_cons, emitAll_append, labelCountAll_reverse,
      emitAll_singleton]

theorem outlineReversed_eq (n : Nat) (es : List Expr) :
    outlineReversed n es = outlineAll n es.reverse := by
  induction es with
  | nil => rfl
  | cons e es ih =>
    simp [outlineReversed, ih, outlineAll_append, labelCountAll_reverse, outlineAll]

end Expr

/-! ### Emission -/

theorem requireBound_ok {α : Type} {line : SourceLine} {name : String} {b : Option α} {a : α}
    (h : requireBound line name b = .ok a) : b = some a := by
  cases b with
  | none => cases h
  | some a' => simpa [requireBound] using h

/-- Emission of an expression succeeds for all sizes of memory and all label numbers or for none,
and the code is the outline, filled in. -/
def Expr.Outlined (e : Expr) : Prop :=
  ∀ size n code, e.emit size n = .ok code →
    ∀ size' n', e.emit size' n' = .ok ((e.outline n').map (Piece.erase size'))

theorem Expr.emitAll_outline {es : List Expr} (hs : ∀ e ∈ es, e.Outlined) :
    ∀ size n code, Expr.emitAll size n es = .ok code →
      ∀ size' n', Expr.emitAll size' n' es =
        .ok ((Expr.outlineAll n' es).map (Piece.erase size')) := by
  induction es with
  | nil =>
    intro size n code h size' n'
    simp [Expr.emitAll, Expr.outlineAll]
  | cons e es ih =>
    intro size n code h size' n'
    simp only [Expr.emitAll, bind_ok_iff] at h
    obtain ⟨first, h₁, rest, h₂, -⟩ := h
    have he := hs e List.mem_cons_self _ _ _ h₁ size'
    have hes := ih (fun e he => hs e (List.mem_cons_of_mem _ he)) _ _ _ h₂ size'
    rw [Expr.emitAll, he, hes, Expr.outlineAll, List.map_append]
    rfl

theorem Expr.emitReversed_outline {es : List Expr} (hs : ∀ e ∈ es, e.Outlined) :
    ∀ size n code, Expr.emitReversed size n es = .ok code →
      ∀ size' n', Expr.emitReversed size' n' es =
        .ok ((Expr.outlineReversed n' es).map (Piece.erase size')) := by
  simp only [Expr.emitReversed_eq, Expr.outlineReversed_eq]
  exact Expr.emitAll_outline fun e he => hs e (List.mem_reverse.1 he)

theorem Expr.outlined (e : Expr) : e.Outlined := by
  induction e using Expr.ind with
  | int line v | bool line v | null line =>
    intro size n code h size' n'
    simp [Expr.emit, Expr.outline]
  | arith line op l r hl hr =>
    intro size n code h size' n'
    simp only [Expr.emit, bind_ok_iff] at h
    obtain ⟨left, h₁, right, h₂, -⟩ := h
    rw [Expr.emit, hl _ _ _ h₁ size' _, hr _ _ _ h₂ size' _]
    simp [Expr.outline, bind, Except.bind, pure, Except.pure]
  | compare line op l r hl hr =>
    intro size n code h size' n'
    cases op <;> simp only [Expr.emit, bind_ok_iff] at h
    case ge =>
      obtain ⟨right, h₁, left, h₂, -⟩ := h
      rw [Expr.emit, hr _ _ _ h₁ size' _, hl _ _ _ h₂ size' _]
      simp [Expr.outline, bind, Except.bind, pure, Except.pure]
    all_goals
      obtain ⟨left, h₁, right, h₂, -⟩ := h
      rw [Expr.emit, hl _ _ _ h₁ size' _, hr _ _ _ h₂ size' _]
      simp [Expr.outline, bind, Except.bind, pure, Except.pure]
  | logic line op l r hl hr =>
    intro size n code h size' n'
    cases op <;> simp only [Expr.emit, bind_ok_iff] at h
    all_goals
      obtain ⟨left, h₁, right, h₂, -⟩ := h
      rw [Expr.emit, hl _ _ _ h₁ size' _, hr _ _ _ h₂ size' _]
      simp [Expr.outline, andCode, orCode, bind, Except.bind, pure, Except.pure]
  | not line e he =>
    intro size n code h size' n'
    simp only [Expr.emit, bind_ok_iff] at h
    obtain ⟨operand, h₁, -⟩ := h
    rw [Expr.emit, he _ _ _ h₁ size' _]
    simp [Expr.outline, bind, Except.bind, pure, Except.pure]
  | cond line c t f hc ht hf =>
    intro size n code h size' n'
    simp only [Expr.emit, bind_ok_iff] at h
    obtain ⟨test, h₁, no, h₂, yes, h₃, -⟩ := h
    rw [Expr.emit, hc _ _ _ h₁ size' _, hf _ _ _ h₂ size' _, ht _ _ _ h₃ size' _]
    simp [Expr.outline, condCode, bind, Except.bind, pure, Except.pure]
  | print line e he =>
    intro size n code h size' n'
    simp only [Expr.emit, bind_ok_iff] at h
    obtain ⟨operand, h₁, -⟩ := h
    rw [Expr.emit, he _ _ _ h₁ size' _]
    simp [Expr.outline, bind, Except.bind, pure, Except.pure]
  | ident line name b =>
    intro size n code h size' n'
    simp only [Expr.emit, bind_ok_iff] at h
    obtain ⟨b', h₁, -⟩ := h
    rw [Expr.emit, h₁]
    simp [Expr.outline, requireBound_ok h₁, bind, Except.bind, pure, Except.pure]
  | call line name args b hargs =>
    intro size n code h size' n'
    simp only [Expr.emit, bind_ok_iff] at h
    obtain ⟨b', h₁, words, h₂, -⟩ := h
    rw [Expr.emit, h₁, Expr.emitReversed_outline hargs _ _ _ h₂ size' _]
    by_cases hm : b'.entry.isMethod
    · simp [Expr.outline, requireBound_ok h₁, callCode, callOutline, hm, Piece.erase, straight,
        bind, Except.bind, pure, Except.pure]
    · simp [Expr.outline, requireBound_ok h₁, callCode, callOutline, hm, bind, Except.bind, pure,
        Except.pure]
  | send line receiver method args b hargs =>
    intro size n code h size' n'
    simp only [Expr.emit, bind_ok_iff] at h
    obtain ⟨b', h₁, words, h₂, -⟩ := h
    rw [Expr.emit, h₁, Expr.emitReversed_outline hargs _ _ _ h₂ size' _]
    simp [Expr.outline, requireBound_ok h₁, sendCode, sendOutline, Piece.erase, straight, bind,
      Except.bind, pure, Except.pure]
  | new line cls args entry hargs =>
    intro size n code h size' n'
    simp only [Expr.emit, bind_ok_iff] at h
    obtain ⟨entry', h₁, words, h₂, -⟩ := h
    rw [Expr.emit, h₁, Expr.emitAll_outline hargs _ _ _ h₂ size' _]
    simp [Expr.outline, requireBound_ok h₁, objectCode, objectOutline, Piece.erase, straight, bind,
      Except.bind, pure, Except.pure]

/-! ### Declarations -/

/-- The outline of `blockCode`. -/
def blockOutline (k params locals : Nat) (decls body : List Piece) : List Piece :=
  plain ([.label (blockLabel k)] ++ straight [.cfp, .lra]) ++ decls ++ body ++
    plain (epilogue params locals)

/-- The outline of what stands in the place of a declaration. -/
def Decl.inline : Nat → Nat → Decl → List Piece
  | n, _, .var v => v.init.outline n
  | _, k, .fn _ => plain (straight [.pushTarget (blockLabel k)])

/-- The outline of what stands in the place of several declarations. -/
def Decl.inlineAll : Nat → Nat → List Decl → List Piece
  | _, _, [] => []
  | n, k, d :: ds =>
    d.inline n k ++ Decl.inlineAll (n + d.labelCount) (k + d.blockCount) ds

mutual

/-- The outline of the blocks hoisted out of a declaration. -/
def Decl.hoisted : Nat → Nat → Decl → List Piece
  | _, _, .var _ => []
  | n, k, .fn f => f.outline n k

/-- The outline of the block of a routine, which gets number `k`, after those inside it. -/
def Routine.outline : Nat → Nat → Routine → List Piece
  | n, k, ⟨_, params, _, decls, body, _, _⟩ =>
    Decl.hoistedAll n (k + 1) decls ++
      blockOutline k params.length decls.length (Decl.inlineAll n (k + 1) decls)
        (body.outline (n + Decl.labelCountAll decls))

/-- The outline of the blocks hoisted out of several declarations. -/
def Decl.hoistedAll : Nat → Nat → List Decl → List Piece
  | _, _, [] => []
  | n, k, d :: ds => d.hoisted n k ++ Decl.hoistedAll (n + d.labelCount) (k + d.blockCount) ds

end

/-- Where a routine is stored does not matter to its block. -/
theorem Routine.outline_offset (f : Routine) (offset : Option Int) (n k : Nat) :
    Routine.outline n k { f with offset := offset } = f.outline n k := by
  cases f
  simp only [Routine.outline]

/-- The code of a declaration is its outline, filled in. -/
def Decl.Outlined (d : Decl) : Prop :=
  ∀ size n k code, d.emit size n k = .ok code → ∀ size' n' k', d.emit size' n' k' =
    .ok ⟨(d.inline n' k').map (Piece.erase size'), (d.hoisted n' k').map (Piece.erase size')⟩

theorem Decl.emitAll_outline {ds : List Decl} (hs : ∀ d ∈ ds, d.Outlined) :
    ∀ size n k code, Decl.emitAll size n k ds = .ok code →
      ∀ size' n' k', Decl.emitAll size' n' k' ds =
        .ok ⟨(Decl.inlineAll n' k' ds).map (Piece.erase size'),
          (Decl.hoistedAll n' k' ds).map (Piece.erase size')⟩ := by
  induction ds with
  | nil =>
    intro size n k code h size' n' k'
    simp [Decl.emitAll, Decl.inlineAll, Decl.hoistedAll, Fragment.empty]
  | cons d ds ih =>
    intro size n k code h size' n' k'
    simp only [Decl.emitAll, bind_ok_iff] at h
    obtain ⟨first, h₁, rest, h₂, -⟩ := h
    have hd := hs d List.mem_cons_self _ _ _ _ h₁ size'
    have hds := ih (fun d hd => hs d (List.mem_cons_of_mem _ hd)) _ _ _ _ h₂ size'
    rw [Decl.emitAll, hd, hds, Decl.inlineAll, Decl.hoistedAll, List.map_append, List.map_append]
    rfl

theorem Routine.emitBlock_outline {f : Routine} (hs : ∀ d ∈ f.decls, d.Outlined)
    {size n k : Nat} {code : List Instruction} (h : f.emitBlock size n k = .ok code)
    (size' n' k' : Nat) :
    f.emitBlock size' n' k' = .ok ((f.outline n' k').map (Piece.erase size')) := by
  obtain ⟨name, params, ret, decls, body, line, offset⟩ := f
  simp only [Routine.emitBlock, bind_ok_iff] at h
  obtain ⟨locals, h₁, result, h₂, -⟩ := h
  rw [Routine.emitBlock, Decl.emitAll_outline hs _ _ _ _ h₁ size' _ _,
    body.outlined _ _ _ h₂ size' _]
  simp [Routine.outline, blockOutline, blockCode, bind, Except.bind, pure, Except.pure]

theorem Decl.outlined (d : Decl) : d.Outlined := by
  induction d using Decl.ind with
  | var v =>
    intro size n k code h size' n' k'
    simp only [Decl.emit, bind_ok_iff] at h
    obtain ⟨init, h₁, -⟩ := h
    rw [Decl.emit, v.init.outlined _ _ _ h₁ size' _]
    simp [Decl.inline, Decl.hoisted, bind, Except.bind, pure, Except.pure]
  | fn f hf =>
    intro size n k code h size' n' k'
    simp only [Decl.emit, bind_ok_iff] at h
    obtain ⟨blocks, h₁, -⟩ := h
    rw [Decl.emit, Routine.emitBlock_outline hf h₁ size' _ _]
    simp [Decl.inline, Decl.hoisted, bind, Except.bind, pure, Except.pure]

theorem Routine.outlined {f : Routine} {size n k : Nat} {code : List Instruction}
    (h : f.emitBlock size n k = .ok code) (size' n' k' : Nat) :
    f.emitBlock size' n' k' = .ok ((f.outline n' k').map (Piece.erase size')) :=
  Routine.emitBlock_outline (fun d _ => d.outlined) h size' n' k'

/-! ### Classes and programs -/

/-- The slot that a method asks for. -/
def Routine.slotIndex (m : Routine) : Nat := (m.offset.getD 0).toNat

/-- A dispatch table with the blocks of methods in their slots, the first of which is block `k`. -/
def methodTable (k : Nat) (table : DispatchTable) : List Routine → DispatchTable
  | [] => table
  | m :: ms => methodTable (k + m.blockCount) (table.place m.slotIndex (blockLabel k)) ms

/-- The outline of the blocks of methods. -/
def methodBlocks (n k : Nat) : List Routine → List Piece
  | [] => []
  | m :: ms => m.outline n k ++ methodBlocks (n + m.labelCount) (k + m.blockCount) ms

namespace ClassDecl

/-- The dispatch table of a class whose first block is block `k`. -/
def table (k : Nat) (tables : NameMap DispatchTable) (c : ClassDecl) : DispatchTable :=
  methodTable k ((c.superclass.bind tables.get?).getD []) c.methods

/-- The outline of what stands in the place of classes. -/
def inlineAll (k : Nat) (tables : NameMap DispatchTable) : List ClassDecl → List Piece
  | [] => []
  | c :: cs =>
    plain (c.table k tables).emit ++
      inlineAll (k + c.blockCount) (tables.insert c.name (c.table k tables)) cs

/-- The outline of the blocks hoisted out of classes. -/
def hoistedAll (n k : Nat) : List ClassDecl → List Piece
  | [] => []
  | c :: cs => methodBlocks n k c.methods ++ hoistedAll (n + c.labelCount) (k + c.blockCount) cs

end ClassDecl

/-- The outline of the code of a program. -/
def Program.outline : Program → List Piece
  | .body main => main.outline 0 ++ plain (straight [.halt])
  | .letIn classes decls main =>
    let labels := ClassDecl.labelCountAll classes
    let blocks := ClassDecl.blockCountAll classes
    plain (straight [.push 0]) ++ ClassDecl.inlineAll 0 .empty classes ++
      Decl.inlineAll labels blocks decls ++ main.outline (labels + Decl.labelCountAll decls) ++
      plain (straight [.halt]) ++ ClassDecl.hoistedAll 0 0 classes ++
      Decl.hoistedAll labels blocks decls

theorem Routine.slotIndex_of_slot {m : Routine} {i : Nat} (h : m.slot = .ok i) :
    m.offset = some (i : Int) ∧ m.slotIndex = i := by
  unfold Routine.slot at h
  split at h
  · rename_i slot hs
    simp only [Except.ok.injEq] at h
    subst h
    exact ⟨hs, by simp [Routine.slotIndex, hs]⟩
  · cases h

theorem emitMethods_outline {ms : List Routine} :
    ∀ {size n k : Nat} {table : DispatchTable} {code : DispatchTable × List Instruction},
      emitMethods size n k table ms = .ok code → ∀ size', emitMethods size' n k table ms =
        .ok (methodTable k table ms, (methodBlocks n k ms).map (Piece.erase size')) := by
  induction ms with
  | nil =>
    intro size n k table code h size'
    simp [emitMethods, methodTable, methodBlocks]
  | cons m ms ih =>
    intro size n k table code h size'
    simp only [emitMethods, bind_ok_iff] at h
    obtain ⟨slot, h₁, block, h₂, rest, h₃, -⟩ := h
    rw [emitMethods, h₁, Routine.outlined h₂ size' _ _]
    obtain ⟨-, rfl⟩ := Routine.slotIndex_of_slot h₁
    simp [ih h₃ size', methodTable, methodBlocks, bind, Except.bind, pure, Except.pure]

theorem ClassDecl.inheritedTable_ok {tables : NameMap DispatchTable} {c : ClassDecl}
    {table : DispatchTable} (h : c.inheritedTable tables = .ok table) :
    table = (c.superclass.bind tables.get?).getD [] := by
  unfold ClassDecl.inheritedTable at h
  cases hsup : c.superclass with
  | none => simpa [hsup] using h.symm
  | some superclass =>
    rw [hsup] at h
    cases hget : tables.get? superclass with
    | none => simp [hget] at h
    | some table => simpa [hget] using h.symm

theorem ClassDecl.emit_outline {size n k : Nat} {tables : NameMap DispatchTable}
    {c : ClassDecl} {code : DispatchTable × Fragment} (h : c.emit size n k tables = .ok code)
    (size' : Nat) : c.emit size' n k tables = .ok (c.table k tables,
      ⟨(c.table k tables).emit, (methodBlocks n k c.methods).map (Piece.erase size')⟩) := by
  simp only [ClassDecl.emit, bind_ok_iff] at h
  obtain ⟨inherited, h₁, methods, h₂, -⟩ := h
  rw [ClassDecl.emit, h₁]
  obtain rfl := ClassDecl.inheritedTable_ok h₁
  simp [emitMethods_outline h₂ size', ClassDecl.table, bind, Except.bind, pure, Except.pure]

theorem ClassDecl.emitAll_outline {cs : List ClassDecl} :
    ∀ {size n k : Nat} {tables : NameMap DispatchTable} {code : Fragment},
      ClassDecl.emitAll size n k tables cs = .ok code →
        ∀ size', ClassDecl.emitAll size' n k tables cs =
          .ok ⟨(ClassDecl.inlineAll k tables cs).map (Piece.erase size'),
            (ClassDecl.hoistedAll n k cs).map (Piece.erase size')⟩ := by
  induction cs with
  | nil =>
    intro size n k tables code h size'
    simp [ClassDecl.emitAll, ClassDecl.inlineAll, ClassDecl.hoistedAll, Fragment.empty]
  | cons c cs ih =>
    intro size n k tables code h size'
    simp only [ClassDecl.emitAll, bind_ok_iff] at h
    obtain ⟨first, h₁, rest, h₂, -⟩ := h
    have hfirst := ClassDecl.emit_outline h₁ size
    rw [h₁, Except.ok.injEq] at hfirst
    subst hfirst
    simp [ClassDecl.emitAll, ClassDecl.emit_outline h₁ size', ih h₂ size', ClassDecl.inlineAll,
      ClassDecl.hoistedAll, Fragment.append, bind, Except.bind, pure, Except.pure]

/-- Where emission succeeds, every method has a slot and a block. -/
theorem emits_of_mem_methods {ms : List Routine} {m : Routine} (hm : m ∈ ms) :
    ∀ {size n k : Nat} {table : DispatchTable} {code : DispatchTable × List Instruction},
      emitMethods size n k table ms = .ok code → (∃ i, m.slot = .ok i) ∧
        ∀ size' n' k',
          m.emitBlock size' n' k' = .ok ((m.outline n' k').map (Piece.erase size')) := by
  induction ms with
  | nil => cases hm
  | cons m' ms ih =>
    intro size n k table code h
    simp only [emitMethods, bind_ok_iff] at h
    obtain ⟨slot, h₁, block, h₂, rest, h₃, -⟩ := h
    rcases List.mem_cons.1 hm with rfl | hm
    · exact ⟨⟨slot, h₁⟩, Routine.outlined h₂⟩
    · exact ih hm h₃

theorem ClassDecl.emits_of_mem {cs : List ClassDecl} {c : ClassDecl} (hc : c ∈ cs)
    {m : Routine} (hm : m ∈ c.methods) :
    ∀ {size n k : Nat} {tables : NameMap DispatchTable} {code : Fragment},
      ClassDecl.emitAll size n k tables cs = .ok code → (∃ i, m.slot = .ok i) ∧
        ∀ size' n' k',
          m.emitBlock size' n' k' = .ok ((m.outline n' k').map (Piece.erase size')) := by
  induction cs with
  | nil => cases hc
  | cons c' cs ih =>
    intro size n k tables code h
    simp only [ClassDecl.emitAll, ClassDecl.emit, bind_ok_iff] at h
    obtain ⟨first, ⟨inherited, -, methods, h₁, -⟩, rest, h₂, -⟩ := h
    rcases List.mem_cons.1 hc with rfl | hc
    · exact emits_of_mem_methods hm h₁
    · exact ih hc h₂

/-- **Emitted code is its outline with the size of memory filled in**, and where emission succeeds
for one size, it does for every other. -/
theorem Program.emit_outline {size : Nat} {p : Program} {code : Listing}
    (h : p.emit size = .ok code) (size' : Nat) :
    p.emit size' = .ok (p.outline.map (Piece.erase size')) := by
  cases p with
  | body main =>
    simp only [Program.emit, bind_ok_iff] at h
    obtain ⟨result, h₁, -⟩ := h
    simp [Program.emit, Program.outline, main.outlined _ _ _ h₁ size' _, bind, Except.bind, pure,
      Except.pure]
  | letIn classes decls main =>
    simp only [Program.emit, bind_ok_iff] at h
    obtain ⟨tables, h₁, locals, h₂, result, h₃, -⟩ := h
    simp [Program.emit, Program.outline, ClassDecl.emitAll_outline h₁ size',
      Decl.emitAll_outline (fun d _ => d.outlined) _ _ _ _ h₂ size' _ _,
      main.outlined _ _ _ h₃ size' _, bind, Except.bind, pure, Except.pure]

theorem Program.eq_outline {size : Nat} {p : Program} {code : Listing}
    (h : p.emit size = .ok code) : code = p.outline.map (Piece.erase size) :=
  Except.ok.inj (h.symm.trans (emit_outline h size))

theorem Program.emits_of_mem {size : Nat} {p : Program} {code : Listing}
    (h : p.emit size = .ok code) {c : ClassDecl} (hc : c ∈ p.classes) {m : Routine}
    (hm : m ∈ c.methods) : (∃ i, m.slot = .ok i) ∧ ∀ size' n k,
      m.emitBlock size' n k = .ok ((m.outline n k).map (Piece.erase size')) := by
  cases p with
  | body main => cases hc
  | letIn classes decls main =>
    simp only [Program.emit, bind_ok_iff] at h
    obtain ⟨tables, h₁, -⟩ := h
    exact ClassDecl.emits_of_mem hc hm h₁

theorem Program.emitBlock_of_mem {size : Nat} {p : Program} {code : Listing}
    (h : p.emit size = .ok code) {c : ClassDecl} (hc : c ∈ p.classes) {m : Routine}
    (hm : m ∈ c.methods) (size' n k : Nat) :
    m.emitBlock size' n k = .ok ((m.outline n k).map (Piece.erase size')) :=
  (emits_of_mem h hc hm).2 size' n k

/-- Where emission succeeds, no method has the place of a field. -/
theorem Program.offset_of_mem {size : Nat} {p : Program} {code : Listing}
    (h : p.emit size = .ok code) {c : ClassDecl} (hc : c ∈ p.classes) {m : Routine}
    (hm : m ∈ c.methods) : ∃ i : Nat, m.offset = some (i : Int) := by
  obtain ⟨⟨i, hi⟩, -⟩ := emits_of_mem h hc hm
  exact ⟨i, (Routine.slotIndex_of_slot hi).1⟩

end ObjectLang
