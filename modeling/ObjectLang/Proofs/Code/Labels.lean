import ObjectLang.Proofs.Code.Assembly
import ObjectLang.Proofs.Code.Segments
import Mathlib.Data.List.Nodup

/-!
# Labels of emitted code

The labels of an expression are numbered from the number it is given on, as many as its
`labelCount`; block labels likewise.  So no label of a program is defined twice
(`Program.nodup_labels`), and since code only refers to labels of its own, nothing is left undefined
(`Program.targets_subset`): emitted code can always be assembled.

Definitions are counted, not listed: what is shown of a part of the tree is that it defines each
label at most as often as its share of the numbers has it.
-/

namespace ObjectLang

open Piece (plain)

/-! ### Numbered labels -/

theorem repr_injective : Function.Injective Nat.repr := by
  intro m n h
  have h' := congrArg String.toList h
  simp only [Nat.repr_eq_ofList_toDigits, String.toList_ofList] at h'
  simpa using congrArg (Nat.ofDigitChars 10 · 0) h'

theorem branchLabel_injective : Function.Injective branchLabel := by
  intro m n h
  have h' := congrArg String.toList h
  simp only [branchLabel, String.toList_append, List.append_cancel_left_eq] at h'
  exact repr_injective (String.toList_injective h')

theorem blockLabel_injective : Function.Injective blockLabel := by
  intro m n h
  have h' := congrArg String.toList h
  simp only [blockLabel, String.toList_append, List.append_cancel_left_eq] at h'
  exact repr_injective (String.toList_injective h')

theorem branchLabel_ne_blockLabel (m n : Nat) : branchLabel m ≠ blockLabel n := by
  intro h
  have h' := congrArg (fun l : Label => l.toList.head?) h
  simp [branchLabel, blockLabel] at h'

/-- Labels with consecutive numbers. -/
def branchLabels (n count : Nat) : List Label := (List.range' n count).map branchLabel

/-- Block labels with consecutive numbers. -/
def blockLabels (k count : Nat) : List Label := (List.range' k count).map blockLabel

@[simp] theorem branchLabels_zero (n : Nat) : branchLabels n 0 = [] := rfl

@[simp] theorem blockLabels_zero (k : Nat) : blockLabels k 0 = [] := rfl

theorem branchLabels_add (n a b : Nat) :
    branchLabels n (a + b) = branchLabels n a ++ branchLabels (n + a) b := by
  simp [branchLabels, ← List.map_append, List.range'_append_1]

theorem blockLabels_add (k a b : Nat) :
    blockLabels k (a + b) = blockLabels k a ++ blockLabels (k + a) b := by
  simp [blockLabels, ← List.map_append, List.range'_append_1]

theorem branchLabels_two (n : Nat) : branchLabels n 2 = [branchLabel n, branchLabel (n + 1)] := rfl

theorem branchLabels_four (n : Nat) :
    branchLabels n 4 =
      [branchLabel n, branchLabel (n + 1), branchLabel (n + 2), branchLabel (n + 3)] := rfl

theorem blockLabels_one (k : Nat) : blockLabels k 1 = [blockLabel k] := rfl

/-- Different numbers and kinds make different labels. -/
theorem nodup_branchLabels_append_blockLabels (n count k blocks : Nat) :
    (branchLabels n count ++ blockLabels k blocks).Nodup := by
  refine List.nodup_append.2 ⟨?_, ?_, ?_⟩
  · exact (List.nodup_range' 1).map branchLabel_injective
  · exact (List.nodup_range' 1).map blockLabel_injective
  · intro a ha b hb hab
    obtain ⟨i, -, rfl⟩ := List.mem_map.1 ha
    obtain ⟨j, -, rfl⟩ := List.mem_map.1 hb
    exact branchLabel_ne_blockLabel i j hab

/-! ### Labels of pieces -/

@[simp] theorem labels_nil : labels [] = [] := rfl

@[simp] theorem labels_append (a b : List Piece) : labels (a ++ b) = labels a ++ labels b := by
  simp [labels]

@[simp] theorem labels_plain (code : List Instruction) :
    labels (plain code) = Listing.labels code := by
  simp [labels]

@[simp] theorem labels_cons_op (o : Op Label) (code : List Piece) :
    labels (.instr (.op o) :: code) = labels code := rfl

@[simp] theorem labels_cons_label (l : Label) (code : List Piece) :
    labels (.instr (.label l) :: code) = l :: labels code := rfl

@[simp] theorem labels_cons_dispatch (site : MethodSite) (code : List Piece) :
    labels (.dispatch site :: code) = labels code := rfl

@[simp] theorem labels_cons_memoryEnd (code : List Piece) :
    labels (.memoryEnd :: code) = labels code := rfl

@[simp] theorem labels_cons_construct (cls : String) (code : List Piece) :
    labels (.construct cls :: code) = labels code := rfl

@[simp] theorem targets_nil : targets [] = [] := rfl

@[simp] theorem targets_append (a b : List Piece) : targets (a ++ b) = targets a ++ targets b := by
  simp [targets]

@[simp] theorem targets_plain (code : List Instruction) :
    targets (plain code) = Listing.targets code := by
  simp [targets]

@[simp] theorem targets_cons_op (o : Op Label) (code : List Piece) :
    targets (.instr (.op o) :: code) = o.target?.toList ++ targets code :=
  Listing.targets_cons_op _ _

@[simp] theorem targets_cons_label (l : Label) (code : List Piece) :
    targets (.instr (.label l) :: code) = targets code := rfl

@[simp] theorem targets_cons_dispatch (site : MethodSite) (code : List Piece) :
    targets (.dispatch site :: code) = targets code := rfl

@[simp] theorem targets_cons_memoryEnd (code : List Piece) :
    targets (.memoryEnd :: code) = targets code := rfl

@[simp] theorem targets_cons_construct (cls : String) (code : List Piece) :
    targets (.construct cls :: code) = targets code := rfl

@[simp] theorem Listing.labels_straight (ops : List (Op Label)) :
    Listing.labels (straight ops) = [] := by
  induction ops with
  | nil => rfl
  | cons o ops ih => simp [ih]

@[simp] theorem Listing.targets_straight (ops : List (Op Label)) :
    Listing.targets (straight ops) = ops.filterMap Op.target? := by
  simp [Listing.targets, straight, List.filterMap_map, Function.comp_def, Instruction.target?]

@[simp] theorem Listing.labels_climbLinks (hops : Nat) : Listing.labels (climbLinks hops) = [] :=
  labels_straight _

@[simp] theorem Listing.targets_climbLinks (hops : Nat) :
    Listing.targets (climbLinks hops) = [] := by
  simp [climbLinks, Op.target?]

@[simp] theorem Listing.labels_branchValue (branch : Label → Op Label) (n : Nat) :
    Listing.labels (branchValue branch n) = branchLabels n 2 := by
  simp [branchValue, branchLabels_two]

@[simp] theorem Listing.targets_branchValue_beq (n : Nat) :
    Listing.targets (branchValue .beq n) = branchLabels n 2 := rfl

@[simp] theorem Listing.targets_branchValue_bleq (n : Nat) :
    Listing.targets (branchValue .bleq n) = branchLabels n 2 := rfl

theorem labels_tail_callOutline (name : String) (b : Binding) :
    labels (callOutline name b []).tail = [] := by
  unfold callOutline
  split <;> simp [loadAt, copyTop]

theorem targets_tail_callOutline (name : String) (b : Binding) :
    targets (callOutline name b []).tail = [] := by
  unfold callOutline
  split <;> simp [loadAt, copyTop, Op.target?]

theorem labels_tail_sendOutline (method : String) (b : MethodBinding) :
    labels (sendOutline method b []).tail = [] := by
  simp [sendOutline, loadAt, copyTop]

theorem targets_tail_sendOutline (method : String) (b : MethodBinding) :
    targets (sendOutline method b []).tail = [] := by
  simp [sendOutline, loadAt, copyTop, Op.target?]

theorem Listing.labels_moves (count : Nat) :
    Listing.labels (List.replicate count moveToHeap).flatten = [] := by
  induction count with
  | zero => rfl
  | succ count ih =>
    rw [List.replicate_succ, List.flatten_cons, labels_append, ih]
    rfl

theorem Listing.targets_moves (count : Nat) :
    Listing.targets (List.replicate count moveToHeap).flatten = [] := by
  induction count with
  | zero => rfl
  | succ count ih =>
    rw [List.replicate_succ, List.flatten_cons, targets_append, ih]
    rfl

theorem labels_objectOutline (cls : String) (entry : Entry) (count : Nat) :
    labels (objectOutline cls entry count) = [] := by
  simp [objectOutline, advanceHeap, Listing.labels_moves]

theorem targets_objectOutline (cls : String) (entry : Entry) (count : Nat) :
    targets (objectOutline cls entry count) = [] := by
  simp [objectOutline, advanceHeap, Listing.targets_moves, Op.target?]

/-! ### Expressions -/

/-- The code of the expression defines labels out of its share only, each at most once. -/
def Expr.KeepsLabels (e : Expr) : Prop :=
  ∀ n l, (labels (e.outline n)).count l ≤ (branchLabels n e.labelCount).count l

namespace Segment

/-- The labels that a segment may define. -/
def quota : Segment → List Label
  | own code => labels code
  | operand e n => branchLabels n e.labelCount

theorem count_labels_le {segments : List Segment} (hs : ∀ e ∈ exprs segments, e.KeepsLabels)
    (l : Label) :
    (labels (outlineAll segments)).count l ≤ (segments.flatMap quota).count l := by
  induction segments with
  | nil => exact Nat.le_refl 0
  | cons s rest ih =>
    simp only [outlineAll_cons, labels_append, List.flatMap_cons, List.count_append]
    cases s with
    | own code => exact Nat.add_le_add_left (ih hs) _
    | operand e n =>
      rw [exprs_operand, List.forall_mem_cons] at hs
      exact Nat.add_le_add (hs.1 n l) (ih hs.2)

theorem targets_subset {segments : List Segment}
    (hs : ∀ e ∈ exprs segments, ∀ n, targets (e.outline n) ⊆ labels (e.outline n))
    (hown : targets (ownCode segments) ⊆ labels (ownCode segments)) :
    targets (outlineAll segments) ⊆ labels (outlineAll segments) := by
  intro l hl
  rw [mem_outlineAll targets_nil targets_append] at hl
  rw [mem_outlineAll labels_nil labels_append]
  rcases hl with hl | ⟨e, n, he, hl⟩
  · exact .inl (hown hl)
  · exact .inr ⟨e, n, he, hs e (mem_exprs.2 ⟨n, he⟩) n hl⟩

end Segment

theorem LogicOp.labels_own (op : LogicOp) (n : Nat) :
    Listing.labels (op.test n) ++ Listing.labels (op.finish n) = branchLabels n op.labelCount := by
  cases op <;> rfl

theorem LogicOp.targets_own (op : LogicOp) (n : Nat) :
    Listing.targets (op.test n) ++ Listing.targets (op.finish n) ⊆ branchLabels n op.labelCount := by
  cases op <;> simp [test, finish, labelCount, branchLabels_two, branchLabels_four, Op.target?]

namespace Expr

theorem labelCount_logic (line : SourceLine) (op : LogicOp) (l r : Expr) :
    (Expr.logic line op l r).labelCount = op.labelCount + l.labelCount + r.labelCount := by
  cases op <;> simp only [labelCount, LogicOp.labelCount] <;> omega

theorem quota_segmentsAll (n : Nat) (es : List Expr) :
    (segmentsAll n es).flatMap Segment.quota = branchLabels n (labelCountAll es) := by
  induction es generalizing n with
  | nil => rfl
  | cons e es ih => simp [segmentsAll, Segment.quota, ih, labelCountAll, branchLabels_add]

theorem quota_segmentsReversed (n : Nat) (es : List Expr) :
    (segmentsReversed n es).flatMap Segment.quota = branchLabels n (labelCountAll es) := by
  rw [segmentsReversed_eq, quota_segmentsAll, labelCountAll_reverse]

/-- The labels of an expression are shared out among its own code and its operands. -/
theorem count_quota_segments (e : Expr) (n : Nat) (l : Label) :
    ((e.segments n).flatMap Segment.quota).count l ≤ (branchLabels n e.labelCount).count l := by
  cases e with
  | int | bool | null => simp [segments, Segment.quota, outline]
  | ident line name b => cases b <;> simp [segments, Segment.quota, outline, identCode, loadAt]
  | arith line op a b => simp [segments, Segment.quota, labelCount, branchLabels_add]
  | compare line op a b =>
    cases op with
    | eq | le => simp [segments, Segment.quota, labelCount, branchLabels_add, Nat.add_assoc]
    | ge =>
      rw [labelCount, Nat.add_comm a.labelCount]
      simp [segments, Segment.quota, branchLabels_add, Nat.add_assoc]
  | logic line op a b =>
    have hown := congrArg (List.count l) (op.labels_own n)
    rw [List.count_append] at hown
    simp only [segments, List.flatMap_cons, List.flatMap_nil, List.append_nil, Segment.quota,
      labels_plain, labelCount_logic, branchLabels_add, List.count_append, Nat.add_assoc]
    omega
  | not line e => simp [segments, Segment.quota, labelCount, branchLabels_add]
  | cond line c t f =>
    have hcount : (Expr.cond line c t f).labelCount =
        2 + c.labelCount + f.labelCount + t.labelCount := by
      rw [labelCount]
      omega
    simp only [hcount, segments, List.flatMap_cons, List.flatMap_nil, List.append_nil,
      Segment.quota, labels_plain, Listing.labels_append, Listing.labels_straight,
      Listing.labels_cons_label, Listing.labels_nil, List.nil_append, branchLabels_add,
      branchLabels_two, List.count_append, List.count_cons, List.count_nil, Nat.add_assoc]
    omega
  | print line e => simp [segments, Segment.quota, labelCount]
  | call line name args b =>
    cases b <;> simp [segments, Segment.quota, outline, labelCount, labels_tail_callOutline,
      quota_segmentsReversed]
  | send line receiver method args b =>
    cases b <;> simp [segments, Segment.quota, outline, labelCount, labels_tail_sendOutline,
      quota_segmentsReversed]
  | new line cls args entry =>
    cases entry <;> simp [segments, Segment.quota, outline, labelCount, labels_objectOutline,
      quota_segmentsAll]

theorem keepsLabels (e : Expr) : e.KeepsLabels := by
  induction e using ind_segments with
  | h e ih =>
    intro n l
    rw [← outlineAll_segments]
    exact Nat.le_trans (Segment.count_labels_le (ih n) l) (e.count_quota_segments n l)

/-- What is not the code of an operand branches inside itself. -/
theorem targets_ownCode (e : Expr) (n : Nat) :
    targets (Segment.ownCode (e.segments n)) ⊆ labels (Segment.ownCode (e.segments n)) := by
  cases e with
  | int | bool | null => simp [segments, outline, Op.target?]
  | ident line name b => cases b <;> simp [segments, outline, identCode, loadAt, Op.target?]
  | arith line op a b => cases op <;> simp [segments, ArithOp.op, Op.target?]
  | compare line op a b => cases op <;> simp [segments, Op.target?]
  | logic line op a b => simpa [segments, op.labels_own] using op.targets_own n
  | not line e => simp [segments, Op.target?]
  | cond line c t f => simp [segments, Op.target?]
  | print line e => simp [segments, Op.target?]
  | call line name args b =>
    cases b <;> simp [segments, outline, targets_tail_callOutline, Op.target?]
  | send line receiver method args b =>
    cases b <;> simp [segments, outline, targets_tail_sendOutline, Op.target?]
  | new line cls args entry => cases entry <;> simp [segments, outline, targets_objectOutline]

/-- The code of an expression branches inside itself. -/
theorem targets_subset (e : Expr) (n : Nat) : targets (e.outline n) ⊆ labels (e.outline n) := by
  induction e using ind_segments generalizing n with
  | h e ih =>
    rw [← outlineAll_segments]
    exact Segment.targets_subset (fun e' he' n' => ih n e' he' n') (e.targets_ownCode n)

end Expr

/-! ### Declarations -/

@[simp] theorem Listing.labels_epilogue (params locals : Nat) :
    Listing.labels (epilogue params locals) = [] := by
  simp only [epilogue, Listing.labels_append, Listing.labels_straight, List.append_nil]

@[simp] theorem Listing.targets_epilogue (params locals : Nat) :
    Listing.targets (epilogue params locals) = [] := by
  simp [epilogue, Op.target?]

theorem labels_blockOutline (k params locals : Nat) (decls body : List Piece) :
    labels (blockOutline k params locals decls body) =
      blockLabel k :: (labels decls ++ labels body) := by
  simp [blockOutline]

theorem targets_blockOutline (k params locals : Nat) (decls body : List Piece) :
    targets (blockOutline k params locals decls body) = targets decls ++ targets body := by
  simp [blockOutline, Op.target?]

/-- How often a label stands among consecutive branch and block labels. -/
def share (n labels k blocks : Nat) (l : Label) : Nat :=
  (branchLabels n labels).count l + (blockLabels k blocks).count l

theorem share_add (n a b k c d : Nat) (l : Label) :
    share n (a + b) k (c + d) l = share n a k c l + share (n + a) b (k + c) d l := by
  simp only [share, branchLabels_add, blockLabels_add, List.count_append]
  omega

/-- The code of the declaration defines labels out of its share only, each at most once. -/
def Decl.KeepsLabels (d : Decl) : Prop :=
  ∀ n k l, (labels (d.inline n k)).count l + (labels (d.hoisted n k)).count l ≤
    share n d.labelCount k d.blockCount l

theorem Decl.count_labels_all {ds : List Decl} (hs : ∀ d ∈ ds, d.KeepsLabels) (n k : Nat)
    (l : Label) :
    (labels (Decl.inlineAll n k ds)).count l + (labels (Decl.hoistedAll n k ds)).count l ≤
      share n (Decl.labelCountAll ds) k (Decl.blockCountAll ds) l := by
  induction ds generalizing n k with
  | nil => simp [Decl.inlineAll, Decl.hoistedAll]
  | cons d ds ih =>
    simp only [List.forall_mem_cons] at hs
    have hd := hs.1 n k l
    have hds := ih hs.2 (n + d.labelCount) (k + d.blockCount)
    simp only [Decl.inlineAll, Decl.hoistedAll, Decl.labelCountAll, Decl.blockCountAll,
      labels_append, List.count_append, share_add]
    omega

theorem Routine.count_labels_of {f : Routine} (hs : ∀ d ∈ f.decls, d.KeepsLabels) (n k : Nat)
    (l : Label) : (labels (f.outline n k)).count l ≤ share n f.labelCount k f.blockCount l := by
  obtain ⟨name, params, ret, decls, body, line, offset⟩ := f
  have hds := Decl.count_labels_all hs n (k + 1) l
  have hb := body.keepsLabels (n + Decl.labelCountAll decls) l
  simp only [Routine.outline, Routine.labelCount, Routine.blockCount, labels_append,
    labels_blockOutline, List.count_append, List.count_cons, share, branchLabels_add,
    Nat.add_comm _ 1, blockLabels_add, blockLabels_one, List.count_nil] at hds ⊢
  omega

theorem Decl.keepsLabels (d : Decl) : d.KeepsLabels := by
  induction d using Decl.ind with
  | var v =>
    intro n k l
    simpa [Decl.inline, Decl.hoisted, Decl.labelCount, Decl.blockCount, share]
      using v.init.keepsLabels n l
  | fn f hf =>
    intro n k l
    simpa [Decl.inline, Decl.hoisted, Decl.labelCount, Decl.blockCount]
      using Routine.count_labels_of hf n k l

theorem Routine.count_labels (f : Routine) (n k : Nat) (l : Label) :
    (labels (f.outline n k)).count l ≤ share n f.labelCount k f.blockCount l :=
  Routine.count_labels_of (fun d _ => d.keepsLabels) n k l

theorem Routine.blockLabel_mem (f : Routine) (n k : Nat) :
    blockLabel k ∈ labels (f.outline n k) := by
  obtain ⟨name, params, ret, decls, body, line, offset⟩ := f
  simp [Routine.outline, labels_blockOutline]

/-- Code in the place of the declaration refers to itself and to the blocks hoisted out of it, and
these to themselves. -/
def Decl.Closed (d : Decl) : Prop :=
  ∀ n k, targets (d.inline n k) ⊆ labels (d.inline n k) ++ labels (d.hoisted n k) ∧
    targets (d.hoisted n k) ⊆ labels (d.hoisted n k)

theorem Decl.closed_all {ds : List Decl} (hs : ∀ d ∈ ds, d.Closed) (n k : Nat) :
    targets (Decl.inlineAll n k ds) ⊆
        labels (Decl.inlineAll n k ds) ++ labels (Decl.hoistedAll n k ds) ∧
      targets (Decl.hoistedAll n k ds) ⊆ labels (Decl.hoistedAll n k ds) := by
  induction ds generalizing n k with
  | nil => simp [Decl.inlineAll, Decl.hoistedAll]
  | cons d ds ih =>
    simp only [List.forall_mem_cons] at hs
    obtain ⟨h₁, h₂⟩ := hs.1 n k
    obtain ⟨h₃, h₄⟩ := ih hs.2 (n + d.labelCount) (k + d.blockCount)
    simp only [Decl.inlineAll, Decl.hoistedAll, labels_append, targets_append]
    constructor <;> grind

theorem Routine.targets_of {f : Routine} (hs : ∀ d ∈ f.decls, d.Closed) (n k : Nat) :
    targets (f.outline n k) ⊆ labels (f.outline n k) := by
  obtain ⟨name, params, ret, decls, body, line, offset⟩ := f
  obtain ⟨h₁, h₂⟩ := Decl.closed_all hs n (k + 1)
  have h₃ := body.targets_subset (n + Decl.labelCountAll decls)
  simp only [Routine.outline, labels_append, targets_append, labels_blockOutline,
    targets_blockOutline]
  grind

theorem Decl.closed (d : Decl) : d.Closed := by
  induction d using Decl.ind with
  | var v =>
    intro n k
    simpa [Decl.inline, Decl.hoisted] using v.init.targets_subset n
  | fn f hf =>
    intro n k
    have hk := f.blockLabel_mem n k
    have ht := Routine.targets_of hf n k
    simp only [Decl.inline, Decl.hoisted, targets_plain, labels_plain, Listing.targets_straight,
      Listing.labels_straight, List.filterMap_cons, Op.target?, List.filterMap_nil]
    exact ⟨by simpa using hk, ht⟩

theorem Routine.targets_subset (f : Routine) (n k : Nat) :
    targets (f.outline n k) ⊆ labels (f.outline n k) :=
  Routine.targets_of (fun d _ => d.closed) n k

/-! ### Classes and programs -/

theorem count_labels_methodBlocks (ms : List Routine) (n k : Nat) (l : Label) :
    (labels (methodBlocks n k ms)).count l ≤
      share n (Routine.labelCountAll ms) k (Routine.blockCountAll ms) l := by
  induction ms generalizing n k with
  | nil => simp [methodBlocks]
  | cons m ms ih =>
    have hm := m.count_labels n k l
    have hms := ih (n + m.labelCount) (k + m.blockCount)
    simp only [methodBlocks, labels_append, List.count_append, Routine.labelCountAll_cons,
      Routine.blockCountAll_cons, share_add]
    omega

theorem targets_methodBlocks (ms : List Routine) (n k : Nat) :
    targets (methodBlocks n k ms) ⊆ labels (methodBlocks n k ms) := by
  induction ms generalizing n k with
  | nil => simp [methodBlocks]
  | cons m ms ih =>
    have hm := m.targets_subset n k
    have hms := ih (n + m.labelCount) (k + m.blockCount)
    simp only [methodBlocks, labels_append, targets_append]
    grind

theorem DispatchTable.place_subset (table : DispatchTable) (slot : Nat) (l : Label) :
    table.place slot l ⊆ l :: table := by
  unfold DispatchTable.place
  split
  · intro x hx
    rcases List.mem_or_eq_of_mem_set hx with h | rfl
    · exact List.mem_cons_of_mem _ h
    · exact List.mem_cons_self
  · grind

/-- A dispatch table holds inherited labels and those of the blocks of its methods. -/
theorem methodTable_subset (ms : List Routine) (n k : Nat) (table : DispatchTable) :
    methodTable k table ms ⊆ table ++ labels (methodBlocks n k ms) := by
  induction ms generalizing n k table with
  | nil => simp [methodTable]
  | cons m ms ih =>
    have hp := table.place_subset m.slotIndex (blockLabel k)
    have hk := m.blockLabel_mem n k
    have hms := ih (n + m.labelCount) (k + m.blockCount) (table.place m.slotIndex (blockLabel k))
    simp only [methodTable, methodBlocks, labels_append]
    grind

@[simp] theorem Listing.labels_tableEmit (table : DispatchTable) :
    Listing.labels table.emit = [] := by
  induction table with
  | nil => rfl
  | cons l table ih => exact ih

@[simp] theorem Listing.targets_tableEmit (table : DispatchTable) :
    Listing.targets table.emit = table := by
  induction table with
  | nil => rfl
  | cons l table ih => exact congrArg (l :: ·) ih

namespace ClassDecl

theorem count_labels_hoistedAll (cs : List ClassDecl) (n k : Nat) (l : Label) :
    (labels (hoistedAll n k cs)).count l ≤
      share n (labelCountAll cs) k (blockCountAll cs) l := by
  induction cs generalizing n k with
  | nil => simp [hoistedAll]
  | cons c cs ih =>
    have hc := count_labels_methodBlocks c.methods n k l
    have hcs := ih (n + c.labelCount) (k + c.blockCount)
    simp only [hoistedAll, labels_append, List.count_append, labelCountAll_cons,
      blockCountAll_cons, share_add]
    simp only [labelCount, blockCount] at hc hcs ⊢
    omega

theorem targets_hoistedAll (cs : List ClassDecl) (n k : Nat) :
    targets (hoistedAll n k cs) ⊆ labels (hoistedAll n k cs) := by
  induction cs generalizing n k with
  | nil => simp [hoistedAll]
  | cons c cs ih =>
    have hc := targets_methodBlocks c.methods n k
    have hcs := ih (n + c.labelCount) (k + c.blockCount)
    simp only [hoistedAll, labels_append, targets_append]
    grind

theorem labels_inlineAll (cs : List ClassDecl) (k : Nat) (tables : NameMap DispatchTable) :
    labels (inlineAll k tables cs) = [] := by
  induction cs generalizing k tables with
  | nil => rfl
  | cons c cs ih => simp [inlineAll, ih]

theorem table_subset {known : List Label} {tables : NameMap DispatchTable}
    (h : ∀ name table, tables.get? name = some table → table ⊆ known) (c : ClassDecl) (n k : Nat) :
    c.table k tables ⊆ known ++ labels (methodBlocks n k c.methods) := by
  have hsub := methodTable_subset c.methods n k ((c.superclass.bind tables.get?).getD [])
  have hinh : (c.superclass.bind tables.get?).getD [] ⊆ known := by
    cases hget : c.superclass.bind tables.get? with
    | none => simp
    | some table =>
      obtain ⟨name, -, hname⟩ := Option.bind_eq_some_iff.1 hget
      exact h name table hname
  unfold table
  grind

theorem targets_inlineAll {known : List Label} {tables : NameMap DispatchTable}
    (h : ∀ name table, tables.get? name = some table → table ⊆ known) (cs : List ClassDecl)
    (n k : Nat) :
    targets (inlineAll k tables cs) ⊆ known ++ labels (hoistedAll n k cs) := by
  induction cs generalizing known tables n k with
  | nil => simp [inlineAll]
  | cons c cs ih =>
    have hc := table_subset h c n k
    have hnext : ∀ name table, (tables.insert c.name (c.table k tables)).get? name = some table →
        table ⊆ known ++ labels (methodBlocks n k c.methods) := by
      intro name table hname
      by_cases hne : name = c.name
      · subst hne
        rw [NameMap.get?_insert_self, Option.some.injEq] at hname
        exact hname ▸ hc
      · rw [NameMap.get?_insert_of_ne _ hne] at hname
        exact List.subset_append_of_subset_left _ (h name table hname)
    have hcs := ih hnext (n + c.labelCount) (k + c.blockCount)
    simp only [inlineAll, hoistedAll, labels_append, targets_append, targets_plain,
      Listing.targets_tableEmit]
    grind

end ClassDecl

namespace Program

theorem count_labels (p : Program) (l : Label) :
    ∃ labelCount blockCount, (labels p.outline).count l ≤ share 0 labelCount 0 blockCount l := by
  cases p with
  | body main =>
    refine ⟨main.labelCount, 0, ?_⟩
    simpa [outline, share] using main.keepsLabels 0 l
  | letIn classes decls main =>
    let classLabels := ClassDecl.labelCountAll classes
    let classBlocks := ClassDecl.blockCountAll classes
    refine ⟨classLabels + Decl.labelCountAll decls + main.labelCount,
      classBlocks + Decl.blockCountAll decls + 0, ?_⟩
    have hc := ClassDecl.count_labels_hoistedAll classes 0 0 l
    have hd := @Decl.count_labels_all decls (fun d _ => d.keepsLabels) classLabels classBlocks l
    have hm := main.keepsLabels (classLabels + Decl.labelCountAll decls) l
    simp only [outline, labels_append, labels_plain, Listing.labels_straight,
      ClassDecl.labels_inlineAll, List.count_append, List.count_nil, share_add, Nat.zero_add,
      classLabels, classBlocks] at hc hd hm ⊢
    simp only [share] at hc hd ⊢
    omega

/-- **No label of a program is defined twice.** -/
theorem nodup_labels (p : Program) : (labels p.outline).Nodup := by
  rw [List.nodup_iff_count_le_one]
  intro l
  obtain ⟨labelCount, blockCount, hle⟩ := p.count_labels l
  have hone := List.nodup_iff_count_le_one.1
    (nodup_branchLabels_append_blockLabels 0 labelCount 0 blockCount) l
  rw [List.count_append] at hone
  exact Nat.le_trans hle hone

/-- Emitted code refers to labels that it defines. -/
theorem targets_subset (p : Program) : targets p.outline ⊆ labels p.outline := by
  cases p with
  | body main =>
    have hm := main.targets_subset 0
    simpa [outline, Op.target?] using hm
  | letIn classes decls main =>
    let classLabels := ClassDecl.labelCountAll classes
    let classBlocks := ClassDecl.blockCountAll classes
    have hi := @ClassDecl.targets_inlineAll [] .empty (by simp) classes 0 0
    have hc := ClassDecl.targets_hoistedAll classes 0 0
    obtain ⟨h₁, h₂⟩ := @Decl.closed_all decls (fun d _ => d.closed) classLabels classBlocks
    have hm := main.targets_subset (classLabels + Decl.labelCountAll decls)
    simp only [outline, labels_append, targets_append, labels_plain, targets_plain,
      Listing.labels_straight, Listing.targets_straight, List.filterMap_cons, List.filterMap_nil,
      Op.target?, ClassDecl.labels_inlineAll]
    intro l hl
    have hi := @hi l
    have hc := @hc l
    have h₁ := @h₁ l
    have h₂ := @h₂ l
    have hm := @hm l
    simp only [List.mem_append, List.not_mem_nil, false_or, or_false, classLabels, classBlocks]
      at hi hc h₁ h₂ hm hl ⊢
    grind

/-- **The emitted code of a program can be assembled**, and is then the code of an image in which
the outline of the program stands from address `0` on. -/
theorem assemble_outline (p : Program) (size : Nat) :
    ∃ ops, Listing.assemble (p.outline.map (Piece.erase size)) = .ok ops ∧
      (Image.ofPieces p.outline).Placed 0 p.outline ∧
      Segmented.Links size (Image.ofPieces p.outline) ops.toArray := by
  refine ⟨_, Listing.assemble_eq ?_ ?_, Image.placed_ofPieces p.nodup_labels,
    Image.links_ofPieces size p.outline⟩
  · rw [labels_erase]
    exact p.nodup_labels
  · rw [labels_erase, targets_erase]
    exact fun l hl => p.targets_subset hl

end Program

end ObjectLang
