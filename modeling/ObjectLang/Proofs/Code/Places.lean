import ObjectLang.Proofs.Access
import ObjectLang.Proofs.Code.Assembly
import ObjectLang.Proofs.Code.Blocks
import ObjectLang.Proofs.Code.Segments

/-!
# Where the code of an expression stands

As the code of an expression is made of the code of its operands and of operations of its own
(`Expr.segments`), so is the code of a program made of the code of the expressions in it
(`Program.segments`).

A `Place` is an expression, the number of the first label in its code and the address where the
code starts.  `Program.Occurs` says which places there are in the code of a program: those of the
initial values, bodies and so on, and from each place on those of the operands.  Every part of the
tree has its place (`Program.exists_occurs`), and at every place stands the code of its expression
(`Program.Occurs.stands`).
-/

namespace ObjectLang

open Piece (plain)

/-- Addresses count operations. -/
theorem length_ops_erase (size : Nat) (code : List Piece) :
    (Listing.ops (code.map (Piece.erase size))).length = width code := by
  have hops := congrArg List.length (Image.ops_erase size code)
  rw [List.length_map, List.length_map] at hops
  exact hops.trans List.countP_eq_length_filter.symm

/-! ### Places -/

/-- Where the code of an expression starts. -/
structure Place where
  expr : Expr
  /-- Number of its first label. -/
  labels : Nat
  /-- Address of its first operation. -/
  start : Nat

/-- The places of expressions among segments that stand from an address on. -/
def Segment.places : Nat → List Segment → List Place
  | _, [] => []
  | i, .own code :: rest => places (i + width code) rest
  | i, .operand e n :: rest => ⟨e, n, i⟩ :: places (i + width (e.outline n)) rest

namespace Segment

theorem map_expr_places (i : Nat) (segments : List Segment) :
    (places i segments).map (·.expr) = exprs segments := by
  induction segments generalizing i with
  | nil => rfl
  | cons s rest ih => cases s <;> simp [places, ih]

/-- What is before a place, at it, and after it. -/
theorem outlineAll_of_mem_places {i : Nat} {segments : List Segment} {x : Place}
    (hx : x ∈ places i segments) : ∃ before after,
      outlineAll segments = before ++ x.expr.outline x.labels ++ after ∧
        i + width before = x.start := by
  induction segments generalizing i with
  | nil => cases hx
  | cons s rest ih =>
    have hlater {j : Nat} (hx : x ∈ places j rest) (hj : j = i + width s.outline) :
        ∃ before after, outlineAll (s :: rest) = before ++ x.expr.outline x.labels ++ after ∧
          i + width before = x.start := by
      obtain ⟨before, after, houtline, hstart⟩ := ih hx
      refine ⟨s.outline ++ before, after, by simp [houtline], ?_⟩
      rw [width_append, ← hstart, hj, Nat.add_assoc]
    cases s with
    | own code => exact hlater hx rfl
    | operand e n =>
      rcases List.mem_cons.1 hx with rfl | hx
      · exact ⟨[], outlineAll rest, rfl, rfl⟩
      · exact hlater hx rfl

end Segment

/-! ### Expressions -/

namespace Expr

/-- Code is emitted for the expression, with some numbers at least. -/
def Emitted (e : Expr) : Prop := ∃ size n code, e.emit size n = .ok code

/-- The operands are those of the expression, each of them once. -/
theorem Emitted.perm_operands {e : Expr} (h : e.Emitted) (n : Nat) :
    (Segment.exprs (e.segments n)).Perm e.operands := by
  obtain ⟨size, m, code, h⟩ := h
  cases e with
  | int | bool | null | ident | arith | logic | not | print => exact .refl _
  | compare line op l r =>
    cases op with
    | eq | le => exact .refl _
    | ge => exact .swap l r []
  | cond line c t f => exact .cons c (.swap t f [])
  | call line name args b =>
    simp only [Expr.emit, bind_ok_iff] at h
    obtain ⟨b', hb, -⟩ := h
    obtain rfl := requireBound_ok hb
    simp [segments, operands, exprs_segmentsReversed, List.reverse_perm]
  | send line receiver method args b =>
    simp only [Expr.emit, bind_ok_iff] at h
    obtain ⟨b', hb, -⟩ := h
    obtain rfl := requireBound_ok hb
    simp [segments, operands, exprs_segmentsReversed, List.reverse_perm]
  | new line cls args entry =>
    simp only [Expr.emit, bind_ok_iff] at h
    obtain ⟨entry', hentry, -⟩ := h
    obtain rfl := requireBound_ok hentry
    simp [segments, operands, exprs_segmentsAll]

theorem emitted_of_emitAll {size : Nat} {es : List Expr} :
    ∀ {n : Nat} {code : List Instruction}, emitAll size n es = .ok code → ∀ e ∈ es, e.Emitted := by
  induction es with
  | nil => simp
  | cons e es ih =>
    intro n code h
    simp only [emitAll, bind_ok_iff] at h
    obtain ⟨first, h₁, rest, h₂, -⟩ := h
    exact List.forall_mem_cons.2 ⟨⟨size, n, first, h₁⟩, ih h₂⟩

theorem emitted_of_emitReversed {size n : Nat} {es : List Expr} {code : List Instruction}
    (h : emitReversed size n es = .ok code) : ∀ e ∈ es, e.Emitted := by
  rw [emitReversed_eq] at h
  exact fun e he => emitted_of_emitAll h e (List.mem_reverse.2 he)

/-- Where code is emitted for an expression, it is for its operands. -/
theorem Emitted.operands {e : Expr} (h : e.Emitted) : ∀ e' ∈ e.operands, e'.Emitted := by
  obtain ⟨size, n, code, h⟩ := h
  cases e with
  | int | bool | null | ident => simp [Expr.operands]
  | arith line op l r =>
    simp only [Expr.emit, bind_ok_iff] at h
    obtain ⟨left, h₁, right, h₂, -⟩ := h
    simpa [Expr.operands] using ⟨⟨_, _, _, h₁⟩, ⟨_, _, _, h₂⟩⟩
  | compare line op l r =>
    cases op <;> simp only [Expr.emit, bind_ok_iff] at h
    case ge =>
      obtain ⟨right, h₁, left, h₂, -⟩ := h
      simpa [Expr.operands] using ⟨⟨_, _, _, h₂⟩, ⟨_, _, _, h₁⟩⟩
    all_goals
      obtain ⟨left, h₁, right, h₂, -⟩ := h
      simpa [Expr.operands] using ⟨⟨_, _, _, h₁⟩, ⟨_, _, _, h₂⟩⟩
  | logic line op l r =>
    cases op <;> simp only [Expr.emit, bind_ok_iff] at h
    all_goals
      obtain ⟨left, h₁, right, h₂, -⟩ := h
      simpa [Expr.operands] using ⟨⟨_, _, _, h₁⟩, ⟨_, _, _, h₂⟩⟩
  | not line e | print line e =>
    simp only [Expr.emit, bind_ok_iff] at h
    obtain ⟨operand, h₁, -⟩ := h
    simpa [Expr.operands] using ⟨_, _, _, h₁⟩
  | cond line c t f =>
    simp only [Expr.emit, bind_ok_iff] at h
    obtain ⟨test, h₁, no, h₂, yes, h₃, -⟩ := h
    simpa [Expr.operands] using ⟨⟨_, _, _, h₁⟩, ⟨_, _, _, h₃⟩, ⟨_, _, _, h₂⟩⟩
  | call line name args b =>
    simp only [Expr.emit, bind_ok_iff] at h
    obtain ⟨b', -, words, h₂, -⟩ := h
    exact emitted_of_emitReversed h₂
  | send line receiver method args b =>
    simp only [Expr.emit, bind_ok_iff] at h
    obtain ⟨b', -, words, h₂, -⟩ := h
    exact emitted_of_emitReversed h₂
  | new line cls args entry =>
    simp only [Expr.emit, bind_ok_iff] at h
    obtain ⟨entry', -, words, h₂, -⟩ := h
    exact emitted_of_emitAll h₂

theorem Emitted.emit_eq {e : Expr} (h : e.Emitted) (memorySize n : Nat) :
    e.emit memorySize n = .ok ((e.outline n).map (Piece.erase memorySize)) := by
  obtain ⟨size, m, code, h⟩ := h
  exact e.outlined _ _ _ h memorySize n

end Expr

/-! ### Programs -/

/-- The initial values of variables among declarations. -/
def Decl.inits (ds : List Decl) : List Expr :=
  ds.filterMap fun
    | .var v => some v.init
    | .fn _ => none

/-- What stands in the place of a declaration. -/
def Decl.segment (n k : Nat) : Decl → Segment
  | .var v => .operand v.init n
  | .fn _ => .own (plain (straight [.pushTarget (blockLabel k)]))

/-- What stands in the place of several declarations. -/
def Decl.segmentsAll : Nat → Nat → List Decl → List Segment
  | _, _, [] => []
  | n, k, d :: ds => d.segment n k :: Decl.segmentsAll (n + d.labelCount) (k + d.blockCount) ds

theorem Decl.outlineAll_segmentsAll (ds : List Decl) (n k : Nat) :
    Segment.outlineAll (Decl.segmentsAll n k ds) = Decl.inlineAll n k ds := by
  induction ds generalizing n k with
  | nil => rfl
  | cons d ds ih =>
    cases d <;>
      simp [Decl.segmentsAll, Decl.inlineAll, Decl.segment, Decl.inline, Segment.outline, ih]

theorem Decl.exprs_segmentsAll (ds : List Decl) (n k : Nat) :
    Segment.exprs (Decl.segmentsAll n k ds) = Decl.inits ds := by
  induction ds generalizing n k with
  | nil => rfl
  | cons d ds ih => cases d <;> simp [Decl.segmentsAll, Decl.segment, Decl.inits, ih]

theorem Decl.emitted_inits {size : Nat} {ds : List Decl} :
    ∀ {n k : Nat} {code : Fragment}, Decl.emitAll size n k ds = .ok code →
      ∀ e ∈ Decl.inits ds, e.Emitted := by
  induction ds with
  | nil => simp [Decl.inits]
  | cons d ds ih =>
    intro n k code h
    simp only [Decl.emitAll, bind_ok_iff] at h
    obtain ⟨first, h₁, rest, h₂, -⟩ := h
    cases d with
    | fn f => exact ih h₂
    | var v =>
      simp only [Decl.emit, bind_ok_iff] at h₁
      obtain ⟨init, h₁, -⟩ := h₁
      exact List.forall_mem_cons.2 ⟨⟨_, _, _, h₁⟩, ih h₂⟩

/-- The expressions of a routine, those of the functions inside apart. -/
def Routine.exprs (f : Routine) : List Expr := Decl.inits f.decls ++ [f.body]

theorem Routine.Emitted.exprs {f : Routine} (h : f.Emitted) : ∀ e ∈ f.exprs, e.Emitted := by
  obtain ⟨size, n, k, code, h⟩ := h
  obtain ⟨name, params, ret, decls, body, line, offset⟩ := f
  simp only [Routine.emitBlock, bind_ok_iff] at h
  obtain ⟨locals, h₁, result, h₂, -⟩ := h
  refine List.forall_mem_append.2 ⟨Decl.emitted_inits h₁, ?_⟩
  simpa using ⟨_, _, _, h₂⟩

/-- The outline of a block, with those of its expressions set apart. -/
def Block.segments (b : Block) : List Segment :=
  .own (plain ([.label (blockLabel b.number)] ++ straight [.cfp, .lra])) ::
    Decl.segmentsAll b.labels (b.number + 1) b.routine.decls ++
    [.operand b.routine.body (b.labels + Decl.labelCountAll b.routine.decls),
      .own (plain (epilogue b.routine.params.length b.routine.decls.length))]

theorem Block.outlineAll_segments (b : Block) : Segment.outlineAll b.segments = b.outline := by
  simp [Block.segments, Block.outline, blockOutline, Segment.outline, Decl.outlineAll_segmentsAll]

theorem Block.exprs_segments (b : Block) : Segment.exprs b.segments = b.routine.exprs := by
  simp [Block.segments, Routine.exprs, Decl.exprs_segmentsAll]

namespace Program

/-- The expressions of a program that are not operands of others: the main one, the initial values
of variables, and the bodies of functions and methods. -/
def exprs (p : Program) : List Expr :=
  Decl.inits p.decls ++ [p.main] ++ p.routines.flatMap Routine.exprs

/-- What is executed first, with the outlines of expressions set apart. -/
def frontSegments : Program → List Segment
  | body main => [.operand main 0]
  | letIn classes decls main =>
    let labels := ClassDecl.labelCountAll classes
    let blocks := ClassDecl.blockCountAll classes
    .own (plain (straight [.push 0]) ++ ClassDecl.inlineAll 0 .empty classes) ::
      Decl.segmentsAll labels blocks decls ++ [.operand main (labels + Decl.labelCountAll decls)]

/-- The outline of a program, with those of its expressions set apart. -/
def segments (p : Program) : List Segment :=
  p.frontSegments ++ [.own (plain (straight [.halt]))] ++ p.blocks.flatMap Block.segments

variable (p : Program)

theorem outlineAll_segments : Segment.outlineAll p.segments = p.outline := by
  have hfront : Segment.outlineAll p.frontSegments = p.front := by
    cases p with
    | body main => simp [frontSegments, front, Segment.outline]
    | letIn classes decls main =>
      simp [frontSegments, front, Segment.outline, Decl.outlineAll_segmentsAll]
  have hblocks (bs : List Block) :
      Segment.outlineAll (bs.flatMap Block.segments) = bs.flatMap Block.outline := by
    induction bs with
    | nil => rfl
    | cons b bs ih => simp [ih, b.outlineAll_segments]
  rw [p.outline_eq, segments, Segment.outlineAll_append, Segment.outlineAll_append, hfront, hblocks]
  rfl

/-- Every expression of the program has its segment. -/
theorem perm_exprs : (Segment.exprs p.segments).Perm p.exprs := by
  have hfront : Segment.exprs p.frontSegments = Decl.inits p.decls ++ [p.main] := by
    cases p with
    | body main => rfl
    | letIn classes decls main =>
      simp [frontSegments, Decl.exprs_segmentsAll, Program.decls, Program.main]
  have hblocks (bs : List Block) : Segment.exprs (bs.flatMap Block.segments) =
      (bs.map (·.routine)).flatMap Routine.exprs := by
    induction bs with
    | nil => rfl
    | cons b bs ih => simp [ih, b.exprs_segments]
  rw [segments, Segment.exprs_append, Segment.exprs_append, hfront, hblocks, exprs]
  simp only [Segment.exprs_own, Segment.exprs_nil, List.append_nil]
  exact (p.perm_routines.flatMap_right _).append_left _

/-- The places of the expressions in a program: from each place on those of the operands. -/
inductive Occurs : Place → Prop
  | root {x : Place} (hx : x ∈ Segment.places 0 p.segments) : Occurs x
  | operand {x y : Place} (hx : Occurs x)
    (hy : y ∈ Segment.places x.start (x.expr.segments x.labels)) : Occurs y

variable {p} {memorySize : Nat} {code : Listing}

theorem emitted_exprs (h : p.emit memorySize = .ok code) : ∀ e ∈ p.exprs, e.Emitted := by
  intro e he
  rcases List.mem_append.1 he with he | he
  · cases p with
    | body main =>
      simp only [Program.emit, bind_ok_iff] at h
      obtain ⟨result, h₁, -⟩ := h
      obtain rfl : e = main := by simpa [Decl.inits, Program.decls, Program.main] using he
      exact ⟨_, _, _, h₁⟩
    | letIn classes decls main =>
      simp only [Program.emit, bind_ok_iff] at h
      obtain ⟨tables, -, locals, h₂, result, h₃, -⟩ := h
      rcases List.mem_append.1 he with he | he
      · exact Decl.emitted_inits h₂ e he
      · obtain rfl : e = main := by simpa [Program.main] using he
        exact ⟨_, _, _, h₃⟩
  · obtain ⟨f, hf, he⟩ := List.mem_flatMap.1 he
    exact (emitted_of_mem h f hf).exprs e he

theorem Occurs.emitted (h : p.emit memorySize = .ok code) {x : Place} (hx : p.Occurs x) :
    x.expr.Emitted := by
  have hmem {i : Nat} {segments : List Segment} {y : Place}
      (hy : y ∈ Segment.places i segments) : y.expr ∈ Segment.exprs segments :=
    Segment.map_expr_places i segments ▸ List.mem_map_of_mem hy
  induction hx with
  | root hx => exact emitted_exprs h _ (p.perm_exprs.subset (hmem hx))
  | operand _ hy ih => exact ih.operands _ ((ih.perm_operands _).subset (hmem hy))

/-- **Every part of the tree has a place.** -/
theorem exists_occurs (h : p.emit memorySize = .ok code) {root e : Expr} (hroot : root ∈ p.exprs)
    (he : e.Within root) : ∃ x, p.Occurs x ∧ x.expr = e := by
  have hplace {i : Nat} {segments : List Segment} {e' : Expr} (he' : e' ∈ Segment.exprs segments) :
      ∃ y ∈ Segment.places i segments, y.expr = e' := by
    rw [← Segment.map_expr_places i] at he'
    exact List.mem_map.1 he'
  obtain ⟨x, hx, rfl⟩ := hplace (p.perm_exprs.symm.subset hroot)
  have hoccurs : p.Occurs x := .root hx
  clear hx hroot
  -- the induction is on the way from the whole to its part, which is a way of places
  generalize hwhole : x.expr = whole at he
  induction he generalizing x with
  | refl => exact ⟨x, hoccurs, hwhole⟩
  | operand _ hoperand ih =>
    subst hwhole
    have hperm := (hoccurs.emitted h).perm_operands x.labels
    obtain ⟨y, hy, hye⟩ := hplace (hperm.symm.subset hoperand)
    exact ih y (.operand hoccurs hy) hye

/-- What is before a place, at it, and after it. -/
theorem Occurs.outline_eq {x : Place} (hx : p.Occurs x) : ∃ before after,
    p.outline = before ++ x.expr.outline x.labels ++ after ∧ width before = x.start := by
  induction hx with
  | root hx =>
    obtain ⟨before, after, houtline, hstart⟩ := Segment.outlineAll_of_mem_places hx
    rw [Nat.zero_add] at hstart
    exact ⟨before, after, p.outlineAll_segments ▸ houtline, hstart⟩
  | operand _ hy ih =>
    obtain ⟨before, after, houtline, hstart⟩ := ih
    obtain ⟨before', after', hinner, hstart'⟩ := Segment.outlineAll_of_mem_places hy
    rw [Expr.outlineAll_segments] at hinner
    refine ⟨before ++ before', after' ++ after, by simp [houtline, hinner], ?_⟩
    rw [width_append, hstart, hstart']

/-- **The code of an expression stands at its place.** -/
theorem Occurs.stands (h : p.emit memorySize = .ok code) {x : Place} (hx : p.Occurs x) :
    ∃ before own after, code = before ++ own ++ after ∧ before.ops.length = x.start ∧
      x.expr.emit memorySize x.labels = .ok own := by
  obtain ⟨before, after, houtline, hstart⟩ := hx.outline_eq
  refine ⟨before.map (Piece.erase memorySize), _, after.map (Piece.erase memorySize), ?_, ?_,
    (hx.emitted h).emit_eq memorySize x.labels⟩
  · rw [eq_outline h, houtline, List.map_append, List.map_append]
  · rw [length_ops_erase, hstart]

end Program

end ObjectLang
