import ObjectLang.Proofs.Code.Blocks
import ObjectLang.Proofs.Code.Labels
import ObjectLang.Proofs.RoundTrip
import Mathlib.Data.List.Chain

/-!
# Emitted code is well formed

Whatever a program is bound to, and also if it would not pass any check: if code is emitted for it,
the code stops in one place, every label in it is defined exactly once, no block is entered from the
instruction before it, and its text is read back as it is.  There is one block for each function and
each method (`Program.wellFormed_of_emit`).

The code of an expression is inner code: it does not stop, and no block starts in it (`Inner`).  So
the only `halt` is the one between what is executed first and the blocks, and the only labels of
blocks are those that the blocks start with.  A block ends with a jump, so what comes before a block
is either this `halt` or such a jump.
-/

namespace ObjectLang

open Piece (plain)

/-! ### Inner code -/

/-- Neither the end of the program nor the start of a block. -/
def Instruction.IsInner : Instruction → Prop
  | .op o => o ≠ .halt
  | .label l => ∀ k, l ≠ blockLabel k

/-- Code that does not stop, and in which no block starts. -/
def Inner (code : List Instruction) : Prop := ∀ i ∈ code, i.IsInner

@[simp] theorem inner_nil : Inner [] := by simp [Inner]

@[simp] theorem inner_append {a b : List Instruction} : Inner (a ++ b) ↔ Inner a ∧ Inner b :=
  List.forall_mem_append

@[simp] theorem inner_cons_op {o : Op Label} {code : List Instruction} :
    Inner (.op o :: code) ↔ o ≠ .halt ∧ Inner code :=
  List.forall_mem_cons

@[simp] theorem inner_cons_label {n : Nat} {code : List Instruction} :
    Inner (.label (branchLabel n) :: code) ↔ Inner code := by
  rw [Inner, List.forall_mem_cons]
  exact and_iff_right fun k => branchLabel_ne_blockLabel n k

theorem inner_straight {ops : List (Op Label)} (h : .halt ∉ ops) : Inner (straight ops) := by
  intro i hi
  obtain ⟨o, ho, rfl⟩ := List.mem_map.1 hi
  exact fun heq => h (heq ▸ ho)

@[simp] theorem inner_climbLinks (hops : Nat) : Inner (climbLinks hops) :=
  inner_straight (by simp [List.mem_replicate])

theorem inner_moves (count : Nat) : Inner (List.replicate count moveToHeap).flatten := by
  intro i hi
  obtain ⟨move, hmove, hi⟩ := List.mem_flatten.1 hi
  rw [List.eq_of_mem_replicate hmove] at hi
  have hinner : Inner moveToHeap := by simp [moveToHeap, advanceHeap]
  exact hinner i hi

/-! ### Expressions -/

section

variable (memorySize : Nat)

/-- The code of an expression does not stop, and no block starts in it. -/
def Expr.IsInner (e : Expr) : Prop := ∀ n, Inner ((e.outline n).map (Piece.erase memorySize))

variable {memorySize}

/-- What is not the code of an operand is inner: jumps of calls are, and all labels that an
expression defines are those of branches. -/
theorem Expr.inner_ownCode (e : Expr) (n : Nat) :
    Inner ((Segment.ownCode (e.segments n)).map (Piece.erase memorySize)) := by
  cases e with
  | int | bool | null => simp [Expr.segments, Expr.outline, Piece.erase]
  | arith line op a b => cases op <;> simp [Expr.segments, Piece.erase, ArithOp.op]
  | compare line op a b => cases op <;> simp [Expr.segments, Piece.erase, branchValue]
  | logic line op a b =>
    cases op <;> simp [Expr.segments, Piece.erase, LogicOp.test, LogicOp.finish]
  | not line e => simp [Expr.segments, Piece.erase, branchValue]
  | cond line c t f => simp [Expr.segments, Piece.erase]
  | print line e => simp [Expr.segments, Piece.erase]
  | ident line name b =>
    cases b <;> simp [Expr.segments, Expr.outline, Piece.erase, identCode, loadAt]
  | call line name args b =>
    cases b with
    | none => simp [Expr.segments, Expr.outline]
    | some b =>
      simp only [Expr.segments, callOutline]
      split <;> simp [copyTop, loadAt, Piece.erase]
  | send line receiver method args b =>
    cases b <;> simp [Expr.segments, Expr.outline, Piece.erase, sendOutline, copyTop, loadAt]
  | new line cls args entry =>
    cases entry <;>
      simp [Expr.segments, Expr.outline, Piece.erase, objectOutline, inner_moves, advanceHeap]

theorem Expr.isInner (e : Expr) : e.IsInner memorySize := by
  induction e using Expr.ind_segments with
  | h e ih =>
    intro n i hi
    rw [← Expr.outlineAll_segments, Segment.mem_outlineAll rfl fun _ _ => List.map_append] at hi
    rcases hi with hi | ⟨e', n', hmem, hi⟩
    · exact e.inner_ownCode n i hi
    · exact ih n e' (Segment.mem_exprs.2 ⟨n', hmem⟩) n' i hi

/-! ### Declarations and blocks -/

theorem Decl.inner_inlineAll (ds : List Decl) (n k : Nat) :
    Inner ((Decl.inlineAll n k ds).map (Piece.erase memorySize)) := by
  induction ds generalizing n k with
  | nil => exact inner_nil
  | cons d ds ih =>
    rw [Decl.inlineAll, List.map_append, inner_append]
    refine ⟨?_, ih _ _⟩
    cases d with
    | var v => exact v.init.isInner n
    | fn f => simp [Decl.inline, Piece.erase]

theorem DispatchTable.inner_emit (table : DispatchTable) : Inner table.emit := by
  induction table with
  | nil => simp [DispatchTable.emit]
  | cons l table ih =>
    simp only [DispatchTable.emit, List.flatMap_cons, inner_append] at ih ⊢
    exact ⟨ih.1, by simp [moveToHeap, advanceHeap], ih.2⟩

theorem ClassDecl.inner_inlineAll (cs : List ClassDecl) (k : Nat) (tables : NameMap DispatchTable) :
    Inner ((ClassDecl.inlineAll k tables cs).map (Piece.erase memorySize)) := by
  induction cs generalizing k tables with
  | nil => exact inner_nil
  | cons c cs ih =>
    rw [ClassDecl.inlineAll, List.map_append, inner_append, Piece.map_erase_plain]
    exact ⟨DispatchTable.inner_emit _, ih _ _⟩

theorem Program.inner_front (p : Program) : Inner (p.front.map (Piece.erase memorySize)) := by
  cases p with
  | body main => exact main.isInner 0
  | letIn classes decls main =>
    simp only [Program.front, List.map_append, inner_append, Piece.map_erase_plain]
    exact ⟨⟨⟨by simp, ClassDecl.inner_inlineAll _ _ _⟩, Decl.inner_inlineAll _ _ _⟩,
      main.isInner _⟩

theorem exists_epilogue (params locals : Nat) :
    ∃ before, epilogue params locals = before ++ [.op .js] ∧ Inner before := by
  have hpops : ∀ count, Inner (straight (List.replicate count .pop)) := fun count =>
    inner_straight (by simp [List.mem_replicate])
  refine ⟨straight [.stm] ++ straight (List.replicate locals .pop) ++ straight [.sra, .pop] ++
    straight (List.replicate params .pop) ++ straight [.sfp, .ltm, .lra], ?_, ?_⟩
  · simp [epilogue]
  · simp [hpops]

/-- A block starts with its label, ends with a jump, and is inner code in between. -/
theorem Block.exists_code (memorySize : Nat) (b : Block) : ∃ inside,
    b.code memorySize = .label (blockLabel b.number) :: (inside ++ [.op .js]) ∧ Inner inside := by
  obtain ⟨f, n, k⟩ := b
  obtain ⟨before, hepilogue, hbefore⟩ := exists_epilogue f.params.length f.decls.length
  have hdecls : Inner ((Decl.inlineAll n (k + 1) f.decls).map (Piece.erase memorySize)) :=
    Decl.inner_inlineAll _ _ _
  have hbody : Inner ((f.body.outline (n + Decl.labelCountAll f.decls)).map
    (Piece.erase memorySize)) := f.body.isInner _
  refine ⟨straight [.cfp, .lra] ++ _ ++ _ ++ before, ?_,
    inner_append.2 ⟨inner_append.2 ⟨inner_append.2 ⟨by simp, hdecls⟩, hbody⟩, hbefore⟩⟩
  simp [Block.code, Block.outline, blockOutline, hepilogue, Piece.erase]

end

/-! ### One place to stop -/

theorem Inner.count_halt {code : List Instruction} (h : Inner code) : code.count (.op .halt) = 0 :=
  List.count_eq_zero.2 fun hmem => h _ hmem rfl

theorem Inner.not_mem_label {code : List Instruction} (h : Inner code) (k : Nat) :
    .label (blockLabel k) ∉ code := fun hmem => h _ hmem k rfl

theorem count_halt_blocks (memorySize : Nat) (blocks : List Block) :
    (blocks.flatMap (Block.code memorySize)).count (.op .halt) = 0 := by
  induction blocks with
  | nil => rfl
  | cons b blocks ih =>
    obtain ⟨inside, hcode, hinner⟩ := b.exists_code memorySize
    rw [List.flatMap_cons, List.count_append, ih, hcode]
    simp [hinner.count_halt]

/-! ### Nothing falls into a block -/

/-- If the second one starts a block, the first one does not go on to it. -/
def Parted (i j : Instruction) : Prop :=
  ∀ k, j = .label (blockLabel k) → i = .op .halt ∨ i = .op .js

/-- Nothing has to be kept apart if no block starts. -/
theorem isChain_parted {code : List Instruction} (h : ∀ k, .label (blockLabel k) ∉ code)
    (i : Instruction) : (i :: code).IsChain Parted := by
  induction code generalizing i with
  | nil => exact .singleton i
  | cons j code ih =>
    refine List.isChain_cons_cons.2 ⟨fun k hk => ?_, ih (fun k hmem => ?_) j⟩
    · exact absurd (hk ▸ List.mem_cons_self) (h k)
    · exact h k (List.mem_cons_of_mem _ hmem)

theorem isChain_blocks (memorySize : Nat) (blocks : List Block) {i : Instruction}
    (hi : i = .op .halt ∨ i = .op .js) :
    (i :: blocks.flatMap (Block.code memorySize)).IsChain Parted := by
  induction blocks generalizing i with
  | nil => exact .singleton i
  | cons b blocks ih =>
    obtain ⟨inside, hcode, hinner⟩ := b.exists_code memorySize
    have hlabel : ∀ k, .label (blockLabel k) ∉ inside ++ [.op .js] := by
      intro k
      simpa using hinner.not_mem_label k
    -- cut at the jump that ends the block: what comes after it is again a chain
    have hblock : (i :: .label (blockLabel b.number) :: (inside ++ [.op .js])).IsChain Parted :=
      List.isChain_cons_cons.2 ⟨fun _ _ => hi, isChain_parted hlabel _⟩
    have hsplit : i :: (b :: blocks).flatMap (Block.code memorySize) =
        (i :: .label (blockLabel b.number) :: inside) ++
          .op .js :: blocks.flatMap (Block.code memorySize) := by
      rw [List.flatMap_cons, hcode]
      simp
    rw [hsplit, List.isChain_split]
    exact ⟨hblock, ih (.inr rfl)⟩

/-- Where neighbours are parted, also from a `pop` in front of the code, every block comes after
`halt` or a jump. -/
theorem getLast?_of_isChain {code before after : List Instruction} {k : Nat}
    (h : (.op .pop :: code).IsChain Parted)
    (hcode : code = before ++ .label (blockLabel k) :: after) :
    before.getLast? = some (.op .halt) ∨ before.getLast? = some (.op .js) := by
  rw [hcode, ← List.cons_append, List.isChain_append] at h
  have hparted := h.2.2 _ List.getLast?_cons _ rfl k rfl
  cases hlast : before.getLast? with
  | none =>
    -- a block at the very start would come after the `pop`
    simp [hlast] at hparted
  | some i => simpa [hlast] using hparted

/-! ### Labels and text -/

/-- A name with a number after it is a name. -/
theorem isName_append_repr {w : List Char} (h : isName w = true) (n : Nat) :
    isName (w ++ (Nat.repr n).toList) = true := by
  have hdigits : ∀ c ∈ (Nat.repr n).toList, c.isAlphanum = true := fun c hc => by
    simp [Char.isAlphanum, Text.isDigit_of_mem_repr hc]
  cases w with
  | nil => cases h
  | cons c w =>
    simp only [isName, Bool.and_eq_true, List.cons_append, List.all_append, List.all_eq_true] at h ⊢
    exact ⟨h.1, h.2, fun c hc => by simp [hdigits c hc]⟩

theorem Listing.validate_ok {code : Listing} (hn : code.labels.Nodup)
    (ht : code.targets ⊆ code.labels) : code.validate = .ok () := by
  obtain ⟨known, hknown, hin, -⟩ := addressesFrom_ok hn 0 .empty (by simp)
  have hdefined : code.targets.find? (fun l => !known.contains l) = none := by
    rw [List.find?_eq_none]
    intro l hl
    simp [NameMap.contains, hin l (ht hl)]
  rw [targets] at hdefined
  simp only [validate, addresses, hknown, hdefined]

namespace Program

/-- Labels are numbered. -/
theorem numbered_of_mem {p : Program} {l : Label} (h : l ∈ labels p.outline) :
    (∃ n, l = branchLabel n) ∨ ∃ k, l = blockLabel k := by
  obtain ⟨labelCount, blockCount, hle⟩ := p.count_labels l
  have hpos := List.count_pos_iff.2 h
  rw [share, ← List.count_append] at hle
  have hmem := List.count_pos_iff.1 (Nat.lt_of_lt_of_le hpos hle)
  rcases List.mem_append.1 hmem with hmem | hmem
  · obtain ⟨n, -, rfl⟩ := List.mem_map.1 hmem
    exact .inl ⟨n, rfl⟩
  · obtain ⟨k, -, rfl⟩ := List.mem_map.1 hmem
    exact .inr ⟨k, rfl⟩

theorem isName_of_mem {p : Program} {l : Label} (h : l ∈ labels p.outline) :
    isName l.toList = true := by
  rcases numbered_of_mem h with ⟨n, rfl⟩ | ⟨k, rfl⟩
  · rw [branchLabel, String.toList_append]
    exact isName_append_repr (by decide) n
  · rw [blockLabel, String.toList_append]
    exact isName_append_repr (by decide) k

/-- All labels in the code are defined in it, and are names. -/
theorem readable_of_mem (p : Program) (memorySize : Nat) :
    ∀ i ∈ p.outline.map (Piece.erase memorySize), i.Readable := by
  intro i hi
  cases i with
  | label l =>
    refine isName_of_mem (p := p) ?_
    rw [← labels_erase memorySize]
    exact mem_labels.2 hi
  | op o =>
    intro l hl
    refine isName_of_mem (p.targets_subset ?_)
    rw [← targets_erase memorySize]
    exact List.mem_filterMap.2 ⟨_, hi, hl⟩

end Program

/-! ### Well-formed code -/

/-- Code that can be run, read and understood block by block. -/
structure Listing.WellFormed (code : Listing) : Prop where
  /-- It stops in one place. -/
  halt : code.count (.op .halt) = 1
  /-- No label is defined twice. -/
  nodup : code.labels.Nodup
  /-- Every label that is used is defined. -/
  defined : code.targets ⊆ code.labels
  valid : code.validate = .ok ()
  /-- The instruction before a block does not go on to it. -/
  parted : ∀ (before : Listing) (k : Nat) (after : Listing),
    code = before ++ .label (blockLabel k) :: after →
      before.getLast? = some (.op .halt) ∨ before.getLast? = some (.op .js)
  /-- Its text is read back as it is. -/
  text : Listing.parse code.text = .ok code

namespace Program

variable {p : Program} {memorySize : Nat} {code : Listing}

theorem code_eq (h : p.emit memorySize = .ok code) :
    code = p.front.map (Piece.erase memorySize) ++ straight [.halt] ++
      p.blocks.flatMap (Block.code memorySize) := by
  rw [eq_outline h, outline_eq, List.map_append, List.map_append, Piece.map_erase_plain,
    List.map_flatMap]
  rfl

theorem wellFormed_code (h : p.emit memorySize = .ok code) : code.WellFormed := by
  have houtline := eq_outline h
  have hnodup : code.labels.Nodup := by
    rw [houtline, labels_erase]
    exact p.nodup_labels
  have hdefined : code.targets ⊆ code.labels := by
    rw [houtline, labels_erase, targets_erase]
    exact p.targets_subset
  refine ⟨?_, hnodup, hdefined, Listing.validate_ok hnodup hdefined, ?_, ?_⟩
  · rw [code_eq h, List.count_append, List.count_append, p.inner_front.count_halt,
      count_halt_blocks]
    rfl
  · have hchain : (.op .pop :: code).IsChain Parted := by
      have hfront : ∀ k, .label (blockLabel k) ∉ p.front.map (Piece.erase memorySize) ++
          [.op .halt] := by
        intro k
        simpa using p.inner_front.not_mem_label k
      rw [code_eq h, List.append_assoc, ← List.cons_append]
      exact List.isChain_split.2 ⟨isChain_parted hfront _, isChain_blocks _ _ (.inl rfl)⟩
    exact fun before k after hcode => getLast?_of_isChain hchain hcode
  · rw [houtline]
    exact Listing.parse_text (p.readable_of_mem memorySize)

/-- The blocks that start in the code are those of the routines. -/
theorem mem_labels_iff (h : p.emit memorySize = .ok code) (k : Nat) :
    blockLabel k ∈ code.labels ↔ k < p.routines.length := by
  have hnumber : .label (blockLabel k) ∈ code ↔ k ∈ p.blocks.map (·.number) := by
    rw [code_eq h]
    constructor
    · intro hmem
      rcases List.mem_append.1 hmem with hmem | hmem
      · rcases List.mem_append.1 hmem with hmem | hmem
        · exact absurd hmem (p.inner_front.not_mem_label k)
        · simp at hmem
      · obtain ⟨b, hb, hmem⟩ := List.mem_flatMap.1 hmem
        obtain ⟨inside, hcode, hinner⟩ := b.exists_code memorySize
        -- all other labels of the block are inner
        have hlabel : blockLabel k = blockLabel b.number := by
          simpa [hcode, hinner.not_mem_label k] using hmem
        rw [blockLabel_injective hlabel]
        exact List.mem_map_of_mem hb
    · intro hmem
      obtain ⟨b, hb, rfl⟩ := List.mem_map.1 hmem
      obtain ⟨inside, hcode, -⟩ := b.exists_code memorySize
      refine List.mem_append_right _ (List.mem_flatMap.2 ⟨b, hb, ?_⟩)
      rw [hcode]
      exact List.mem_cons_self
  rw [mem_labels, hnumber, p.perm_numbers.mem_iff, List.mem_range]

/-- **Emitted code is well formed**, whatever the names in the program are bound to.  It is what is
executed first, then `halt`, and then the blocks of all functions and methods of the program, one
for each of them and each with a number of its own; no other blocks start in the code. -/
theorem wellFormed_of_emit (h : p.emit memorySize = .ok code) :
    code.WellFormed ∧ (∀ k, blockLabel k ∈ code.labels ↔ k < p.routines.length) ∧
      ∃ (front : Listing) (blocks : List Block),
        code = front ++ straight [.halt] ++ blocks.flatMap (Block.code memorySize) ∧
        (blocks.map (·.routine)).Perm p.routines ∧
        (blocks.map (·.number)).Perm (List.range p.routines.length) ∧
        ∀ b ∈ blocks, b.routine.IsBlock memorySize b.labels b.number (b.code memorySize) :=
  ⟨wellFormed_code h, mem_labels_iff h, _, p.blocks, code_eq h, p.perm_routines, p.perm_numbers,
    fun _ hb => isBlock_of_mem h hb⟩

/-- A method and a function with functions inside, and a name that is bound to nothing there is. -/
def tangle : Program :=
  .letIn
    [{ name := "Lamp"
       fields := []
       methods := [{ name := "toggle", params := [], ret := .bool
                     decls := [.fn { name := "dim", params := [], ret := .bool, decls := []
                                     body := .logic 0 .or (.bool 0 false) (.bool 0 true) }]
                     body := .not 0 (.bool 0 true), offset := some 0 }] }]
    [.fn { name := "outer", params := [], ret := .int
           decls := [.fn { name := "inner", params := [], ret := .int, decls := []
                           body := .cond 0 (.bool 0 true) (.int 0 1) (.int 0 2) }]
           body := .int 0 3 }]
    (.logic 0 .and (.ident 0 "nothing" (some ⟨⟨5, .int, 9⟩, 2⟩)) (.bool 0 true))

theorem wellFormed_of_emit_tangle : ∃ code, tangle.emit 100 = .ok code ∧ code.WellFormed ∧
    ∀ k, blockLabel k ∈ code.labels ↔ k < 4 := by
  obtain ⟨code, hcode⟩ : ∃ code, tangle.emit 100 = .ok code := ⟨_, rfl⟩
  obtain ⟨hwell, hblocks, -⟩ := wellFormed_of_emit hcode
  exact ⟨code, hcode, hwell, hblocks⟩

end Program

end ObjectLang
