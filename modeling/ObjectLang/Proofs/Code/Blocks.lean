import ObjectLang.Proofs.Stages
import ObjectLang.Proofs.WellScoped

/-!
# Blocks of a program

The code of a program ends with the blocks of its functions and methods, each of them after the
blocks of the functions inside it.  `Program.blocks` lists them in this order, with the numbers that
their labels and blocks start from:

* `Program.outline_eq` splits the outline of a program into what is executed first, the `halt` after
  it, and the blocks one after the other;
* `Program.perm_routines` and `Program.perm_numbers` say that there is one block for each routine of
  the tree, and that their numbers are those from `0` on;
* `Program.isBlock_of_mem` says what is in a block: the code of the local declarations and the body
  of its routine, for its number of parameters (`Routine.IsBlock`).
-/

namespace ObjectLang

open Piece (plain)

/-- The code is the block of a routine, with number `k` and with labels from number `n` on: it has
the routine's parameters, local declarations and body, and none of the blocks inside it.  It starts
with its label, and its end pops the words of the local declarations and of the parameters. -/
def Routine.IsBlock (memorySize n k : Nat) (f : Routine) (block : List Instruction) : Prop :=
  ∃ locals result, Decl.emitAll memorySize n (k + 1) f.decls = .ok locals ∧
    f.body.emit memorySize (n + Decl.labelCountAll f.decls) = .ok result ∧
    block = [.label (blockLabel k), .op .cfp, .op .lra] ++ locals.inline ++ result ++
      ([.op .stm] ++ List.replicate f.decls.length (.op .pop) ++ [.op .sra, .op .pop] ++
        List.replicate f.params.length (.op .pop) ++ [.op .sfp, .op .ltm, .op .lra, .op .js])

theorem Routine.isBlock_iff {memorySize n k : Nat} {f : Routine} {block : List Instruction} :
    f.IsBlock memorySize n k block ↔
      ∃ locals result, Decl.emitAll memorySize n (k + 1) f.decls = .ok locals ∧
        f.body.emit memorySize (n + Decl.labelCountAll f.decls) = .ok result ∧
        block = blockCode k f.params.length f.decls.length locals.inline result := by
  simp [Routine.IsBlock, blockCode, epilogue, straight]

/-- The block of a routine. -/
structure Block where
  routine : Routine
  /-- Number of its first label. -/
  labels : Nat
  number : Nat

namespace Block

/-- The outline of a block, without those of the functions inside. -/
def outline (b : Block) : List Piece :=
  blockOutline b.number b.routine.params.length b.routine.decls.length
    (Decl.inlineAll b.labels (b.number + 1) b.routine.decls)
    (b.routine.body.outline (b.labels + Decl.labelCountAll b.routine.decls))

/-- The code of a block. -/
def code (memorySize : Nat) (b : Block) : List Instruction := b.outline.map (Piece.erase memorySize)

end Block

mutual

/-- The blocks hoisted out of a declaration. -/
def Decl.blocks : Nat → Nat → Decl → List Block
  | _, _, .var _ => []
  | n, k, .fn f => f.blocks n k

/-- The block of a routine, which gets number `k`, after those inside it. -/
def Routine.blocks : Nat → Nat → Routine → List Block
  | n, k, ⟨name, params, ret, decls, body, line, offset⟩ =>
    Decl.blocksAll n (k + 1) decls ++ [⟨⟨name, params, ret, decls, body, line, offset⟩, n, k⟩]

/-- The blocks hoisted out of several declarations. -/
def Decl.blocksAll : Nat → Nat → List Decl → List Block
  | _, _, [] => []
  | n, k, d :: ds => d.blocks n k ++ Decl.blocksAll (n + d.labelCount) (k + d.blockCount) ds

end

/-- The blocks of methods. -/
def Routine.blocksAll (n k : Nat) : List Routine → List Block
  | [] => []
  | m :: ms => m.blocks n k ++ Routine.blocksAll (n + m.labelCount) (k + m.blockCount) ms

/-- The blocks hoisted out of classes. -/
def ClassDecl.blocksAll (n k : Nat) : List ClassDecl → List Block
  | [] => []
  | c :: cs =>
    Routine.blocksAll n k c.methods ++ blocksAll (n + c.labelCount) (k + c.blockCount) cs

namespace Program

/-- The blocks of a program. -/
def blocks : Program → List Block
  | body _ => []
  | letIn classes decls _ =>
    ClassDecl.blocksAll 0 0 classes ++
      Decl.blocksAll (ClassDecl.labelCountAll classes) (ClassDecl.blockCountAll classes)
        decls

/-- The outline of what is executed first: tables, declarations and the expression. -/
def front : Program → List Piece
  | body main => main.outline 0
  | letIn classes decls main =>
    let labels := ClassDecl.labelCountAll classes
    let blocks := ClassDecl.blockCountAll classes
    plain (straight [.push 0]) ++ ClassDecl.inlineAll 0 .empty classes ++
      Decl.inlineAll labels blocks decls ++ main.outline (labels + Decl.labelCountAll decls)

end Program

/-! ### One block for each routine -/

/-- The blocks make up the code, are numbered from `k` on, and belong to the routines. -/
structure Hoisted (code : List Piece) (k count : Nat) (routines : List Routine)
    (blocks : List Block) : Prop where
  outline : code = blocks.flatMap Block.outline
  numbers : (blocks.map (·.number)).Perm (List.range' k count)
  routines : (blocks.map (·.routine)).Perm routines

namespace Hoisted

variable {code code' : List Piece} {k count count' : Nat} {routines routines' : List Routine}
  {blocks blocks' : List Block}

theorem nil (k : Nat) : Hoisted [] k 0 [] [] := ⟨rfl, .nil, .nil⟩

theorem append (h : Hoisted code k count routines blocks)
    (h' : Hoisted code' (k + count) count' routines' blocks') :
    Hoisted (code ++ code') k (count + count') (routines ++ routines') (blocks ++ blocks') where
  outline := by rw [List.flatMap_append, h.outline, h'.outline]
  numbers := by
    rw [List.map_append, ← List.range'_append_1]
    exact h.numbers.append h'.numbers
  routines := by
    rw [List.map_append]
    exact h.routines.append h'.routines

/-- A routine takes the number before those of the functions inside it, but its block comes
last. -/
theorem routine (h : Hoisted code (k + 1) count routines blocks) (f : Routine) (n : Nat) :
    Hoisted (code ++ (Block.mk f n k).outline) k (count + 1) (f :: routines)
      (blocks ++ [⟨f, n, k⟩]) where
  outline := by
    rw [List.flatMap_append, List.flatMap_singleton, h.outline]
  numbers := by
    rw [List.map_append, List.map_singleton, List.range'_succ]
    exact (List.perm_append_singleton _ _).trans (h.numbers.cons k)
  routines := by
    rw [List.map_append, List.map_singleton]
    exact (List.perm_append_singleton _ _).trans (h.routines.cons f)

end Hoisted

/-- The blocks of a declaration are what it says. -/
def Decl.IsHoisted (d : Decl) : Prop :=
  ∀ n k, Hoisted (d.hoisted n k) k d.blockCount d.routines (d.blocks n k)

theorem Decl.hoisted_all {ds : List Decl} (hs : ∀ d ∈ ds, d.IsHoisted) (n k : Nat) :
    Hoisted (Decl.hoistedAll n k ds) k (Decl.blockCountAll ds) (Decl.routinesAll ds)
      (Decl.blocksAll n k ds) := by
  induction ds generalizing n k with
  | nil => exact .nil k
  | cons d ds ih =>
    rw [List.forall_mem_cons] at hs
    exact (hs.1 n k).append (ih hs.2 _ _)

theorem Routine.hoisted_of {f : Routine} (hs : ∀ d ∈ f.decls, d.IsHoisted) (n k : Nat) :
    Hoisted (f.outline n k) k f.blockCount f.routines (f.blocks n k) := by
  obtain ⟨name, params, ret, decls, body, line, offset⟩ := f
  simp only [Routine.outline, Routine.blockCount, Routine.routines, Routine.blocks]
  exact (Decl.hoisted_all hs n (k + 1)).routine ⟨name, params, ret, decls, body, line, offset⟩ n

theorem Decl.isHoisted (d : Decl) : d.IsHoisted := by
  induction d using Decl.ind with
  | var v => exact fun _ k => .nil k
  | fn f hf => exact Routine.hoisted_of hf

theorem Routine.hoisted_all (ms : List Routine) (n k : Nat) :
    Hoisted (methodBlocks n k ms) k (Routine.blockCountAll ms) (ms.flatMap Routine.routines)
      (Routine.blocksAll n k ms) := by
  induction ms generalizing n k with
  | nil => exact .nil k
  | cons m ms ih => exact (Routine.hoisted_of (fun d _ => d.isHoisted) n k).append (ih _ _)

theorem ClassDecl.hoisted_all (cs : List ClassDecl) (n k : Nat) :
    Hoisted (ClassDecl.hoistedAll n k cs) k (ClassDecl.blockCountAll cs)
      (cs.flatMap fun c => c.methods.flatMap Routine.routines) (ClassDecl.blocksAll n k cs) := by
  induction cs generalizing n k with
  | nil => exact .nil k
  | cons c cs ih =>
    rw [ClassDecl.blockCountAll_cons]
    exact (Routine.hoisted_all c.methods n k).append (ih _ _)

namespace Program

variable (p : Program)

/-- The outline of a program: what is executed first, `halt`, and the blocks, of which there is one
for each routine. -/
theorem exists_hoisted : ∃ code count, p.outline = p.front ++ plain (straight [.halt]) ++ code ∧
    Hoisted code 0 count p.routines p.blocks := by
  cases p with
  | body main => exact ⟨[], 0, (List.append_nil _).symm, .nil 0⟩
  | letIn classes decls main =>
    have hclasses := ClassDecl.hoisted_all classes 0 0
    have hdecls := Decl.hoisted_all (fun d (_ : d ∈ decls) => d.isHoisted)
      (ClassDecl.labelCountAll classes) (ClassDecl.blockCountAll classes)
    refine ⟨_, _, ?_, hclasses.append (by rw [Nat.zero_add]; exact hdecls)⟩
    simp only [Program.outline, Program.front, List.append_assoc]

theorem outline_eq :
    p.outline = p.front ++ plain (straight [.halt]) ++ p.blocks.flatMap Block.outline := by
  obtain ⟨code, count, houtline, hblocks⟩ := p.exists_hoisted
  rw [houtline, hblocks.outline]

theorem perm_routines : (p.blocks.map (·.routine)).Perm p.routines := by
  obtain ⟨code, count, -, hblocks⟩ := p.exists_hoisted
  exact hblocks.routines

theorem perm_numbers : (p.blocks.map (·.number)).Perm (List.range p.routines.length) := by
  obtain ⟨code, count, -, hblocks⟩ := p.exists_hoisted
  obtain rfl : p.routines.length = count := by
    have hnumbers := hblocks.numbers.length_eq
    have hroutines := hblocks.routines.length_eq
    simp only [List.length_map, List.length_range'] at hnumbers hroutines
    omega
  rw [List.range_eq_range']
  exact hblocks.numbers

end Program

/-! ### Blocks and emission -/

/-- Code is emitted for the routine, with some numbers at least. -/
def Routine.Emitted (f : Routine) : Prop := ∃ size n k code, f.emitBlock size n k = .ok code

/-- The outline of a block, filled in, is the block of its routine. -/
theorem Routine.Emitted.isBlock {f : Routine} (h : f.Emitted) (memorySize n k : Nat) :
    f.IsBlock memorySize n k ((Block.mk f n k).code memorySize) := by
  obtain ⟨size, n', k', code, h⟩ := h
  obtain ⟨name, params, ret, decls, body, line, offset⟩ := f
  simp only [Routine.emitBlock, bind_ok_iff] at h
  obtain ⟨locals, h₁, result, h₂, -⟩ := h
  refine Routine.isBlock_iff.2 ⟨_, _,
    Decl.emitAll_outline (fun d _ => d.outlined) _ _ _ _ h₁ memorySize _ _,
    body.outlined _ _ _ h₂ memorySize _, ?_⟩
  simp only [Block.code, Block.outline, blockOutline, blockCode, List.map_append,
    Piece.map_erase_plain]

/-- Where code is emitted for a declaration, it is for the functions in it. -/
def Decl.EmitsRoutines (d : Decl) : Prop :=
  ∀ {size n k code}, d.emit size n k = .ok code → ∀ f ∈ d.routines, f.Emitted

theorem Decl.emitted_all {ds : List Decl} (hs : ∀ d ∈ ds, d.EmitsRoutines) {size n k : Nat}
    {code : Fragment} (h : Decl.emitAll size n k ds = .ok code) :
    ∀ f ∈ Decl.routinesAll ds, f.Emitted := by
  induction ds generalizing n k code with
  | nil => simp [Decl.routinesAll]
  | cons d ds ih =>
    rw [List.forall_mem_cons] at hs
    simp only [Decl.emitAll, bind_ok_iff] at h
    obtain ⟨first, h₁, rest, h₂, -⟩ := h
    rw [Decl.routinesAll, List.forall_mem_append]
    exact ⟨hs.1 h₁, ih hs.2 h₂⟩

theorem Routine.emitted_of {f : Routine} (hs : ∀ d ∈ f.decls, d.EmitsRoutines) {size n k : Nat}
    {code : List Instruction} (h : f.emitBlock size n k = .ok code) :
    ∀ g ∈ f.routines, g.Emitted := by
  have hf : f.Emitted := ⟨size, n, k, code, h⟩
  obtain ⟨name, params, ret, decls, body, line, offset⟩ := f
  simp only [Routine.emitBlock, bind_ok_iff] at h
  obtain ⟨locals, h₁, -⟩ := h
  rw [Routine.routines, List.forall_mem_cons]
  exact ⟨hf, Decl.emitted_all hs h₁⟩

theorem Decl.emitsRoutines (d : Decl) : d.EmitsRoutines := by
  induction d using Decl.ind with
  | var v => simp [Decl.EmitsRoutines, Decl.routines]
  | fn f hf =>
    intro size n k code h
    simp only [Decl.emit, bind_ok_iff] at h
    obtain ⟨blocks, h₁, -⟩ := h
    exact Routine.emitted_of hf h₁

namespace Program

variable {p : Program} {memorySize : Nat} {code : Listing}

/-- Where code is emitted for a program, it is for each of its routines. -/
theorem emitted_of_mem (h : p.emit memorySize = .ok code) : ∀ f ∈ p.routines, f.Emitted := by
  intro f hf
  rcases List.mem_append.1 hf with hf | hf
  · obtain ⟨c, hc, hf⟩ := List.mem_flatMap.1 hf
    obtain ⟨m, hm, hf⟩ := List.mem_flatMap.1 hf
    exact Routine.emitted_of (fun d _ => d.emitsRoutines)
      (Program.emitBlock_of_mem h hc hm memorySize 0 0) f hf
  · cases p with
    | body main => cases hf
    | letIn classes decls main =>
      simp only [Program.emit, bind_ok_iff] at h
      obtain ⟨tables, -, locals, h₂, -⟩ := h
      exact Decl.emitted_all (fun d _ => d.emitsRoutines) h₂ f hf

/-- The code of every block is that of its routine. -/
theorem isBlock_of_mem (h : p.emit memorySize = .ok code) {b : Block} (hb : b ∈ p.blocks) :
    b.routine.IsBlock memorySize b.labels b.number (b.code memorySize) :=
  (emitted_of_mem h b.routine
    (p.perm_routines.subset (List.mem_map_of_mem hb))).isBlock memorySize b.labels b.number

end Program

end ObjectLang
