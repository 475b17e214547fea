import ObjectLang.Proofs.Code.Placement

/-!
# What the code of an expression is made of

The code of an expression is made of the code of its operands and of some operations of its own,
between and around them (`Expr.segments`).  What is to be shown of the code of all expressions can
be shown of these operations, and of the whole if it holds of the operands (`Expr.ind_segments`).
-/

namespace ObjectLang

open Piece (plain)

/-! ### Segments -/

/-- A part of an outline: pieces, or the outline of an expression. -/
inductive Segment where
  | own (code : List Piece)
  | operand (e : Expr) (labels : Nat)

namespace Segment

def outline : Segment → List Piece
  | own code => code
  | operand e n => e.outline n

/-- The expression whose outline it is. -/
def expr? : Segment → Option Expr
  | own _ => none
  | operand e _ => some e

/-- The outline of segments one after the other. -/
def outlineAll (segments : List Segment) : List Piece := segments.flatMap outline

@[simp] theorem outlineAll_nil : outlineAll [] = [] := rfl

@[simp] theorem outlineAll_cons (s : Segment) (rest : List Segment) :
    outlineAll (s :: rest) = s.outline ++ outlineAll rest := rfl

@[simp] theorem outlineAll_append (a b : List Segment) :
    outlineAll (a ++ b) = outlineAll a ++ outlineAll b := List.flatMap_append

/-- The expressions among segments. -/
def exprs (segments : List Segment) : List Expr := segments.filterMap expr?

@[simp] theorem exprs_nil : exprs [] = [] := rfl

@[simp] theorem exprs_own (code : List Piece) (rest : List Segment) :
    exprs (.own code :: rest) = exprs rest := rfl

@[simp] theorem exprs_operand (e : Expr) (n : Nat) (rest : List Segment) :
    exprs (.operand e n :: rest) = e :: exprs rest := rfl

@[simp] theorem exprs_append (a b : List Segment) : exprs (a ++ b) = exprs a ++ exprs b :=
  List.filterMap_append

/-- The pieces among segments that belong to no operand. -/
def ownCode : List Segment → List Piece
  | [] => []
  | own code :: rest => code ++ ownCode rest
  | operand _ _ :: rest => ownCode rest

@[simp] theorem ownCode_nil : ownCode [] = [] := rfl

@[simp] theorem ownCode_own (code : List Piece) (rest : List Segment) :
    ownCode (.own code :: rest) = code ++ ownCode rest := rfl

@[simp] theorem ownCode_operand (e : Expr) (n : Nat) (rest : List Segment) :
    ownCode (.operand e n :: rest) = ownCode rest := rfl

@[simp] theorem ownCode_append (a b : List Segment) : ownCode (a ++ b) = ownCode a ++ ownCode b := by
  induction a with
  | nil => rfl
  | cons s a ih => cases s <;> simp [ih]

theorem mem_exprs {segments : List Segment} {e : Expr} :
    e ∈ exprs segments ↔ ∃ n, operand e n ∈ segments := by
  induction segments with
  | nil => simp
  | cons s rest ih => cases s <;> simp [ih, exists_or]

/-- What is collected from an outline comes from the pieces of its own or from an operand. -/
theorem mem_outlineAll {α : Type} {collect : List Piece → List α} (hnil : collect [] = [])
    (happend : ∀ a b, collect (a ++ b) = collect a ++ collect b) {segments : List Segment}
    {x : α} : x ∈ collect (outlineAll segments) ↔ x ∈ collect (ownCode segments) ∨
      ∃ e n, operand e n ∈ segments ∧ x ∈ collect (e.outline n) := by
  induction segments with
  | nil => simp [hnil]
  | cons s rest ih =>
    cases s with
    | own code => simp [outline, happend, ih, or_assoc]
    | operand e n =>
      simp only [outlineAll_cons, outline, ownCode_operand, happend, List.mem_append, ih,
        List.mem_cons, operand.injEq]
      constructor
      · rintro (hx | hx | ⟨e', n', hmem, hx⟩)
        · exact .inr ⟨e, n, .inl ⟨rfl, rfl⟩, hx⟩
        · exact .inl hx
        · exact .inr ⟨e', n', .inr hmem, hx⟩
      · rintro (hx | ⟨e', n', ⟨rfl, rfl⟩ | hmem, hx⟩)
        · exact .inr (.inl hx)
        · exact .inl hx
        · exact .inr (.inr ⟨e', n', hmem, hx⟩)

end Segment

namespace Expr

/-- Expressions from the first to the last. -/
def segmentsAll : Nat → List Expr → List Segment
  | _, [] => []
  | n, e :: es => .operand e n :: segmentsAll (n + e.labelCount) es

/-- Expressions from the last to the first. -/
def segmentsReversed : Nat → List Expr → List Segment
  | _, [] => []
  | n, e :: es => segmentsReversed n es ++ [.operand e (n + labelCountAll es)]

/-- The outline of an expression, with those of its operands set apart. -/
def segments : Nat → Expr → List Segment
  | n, .arith _ op l r =>
    [.operand l n, .operand r (n + l.labelCount), .own (plain (straight [op.op]))]
  | n, .compare _ .eq l r =>
    [.operand l n, .operand r (n + l.labelCount),
      .own (plain (branchValue .beq (n + l.labelCount + r.labelCount)))]
  | n, .compare _ .le l r =>
    [.operand l n, .operand r (n + l.labelCount),
      .own (plain (branchValue .bleq (n + l.labelCount + r.labelCount)))]
  | n, .compare _ .ge l r =>
    [.operand r n, .operand l (n + r.labelCount),
      .own (plain (straight [.sub, .push 0] ++
        branchValue .bleq (n + r.labelCount + l.labelCount)))]
  | n, .logic _ op l r =>
    [.operand l (n + op.labelCount), .own (plain (op.test n)),
      .operand r (n + op.labelCount + l.labelCount), .own (plain (op.finish n))]
  | n, .not _ e =>
    [.operand e n, .own (plain (straight [.push 0] ++ branchValue .beq (n + e.labelCount)))]
  | n, .cond _ c t f =>
    [.operand c (n + 2), .own (plain (straight [.push 1, .beq (branchLabel n)])),
      .operand f (n + 2 + c.labelCount),
      .own (plain (straight [.b (branchLabel (n + 1))] ++ [.label (branchLabel n)])),
      .operand t (n + 2 + c.labelCount + f.labelCount), .own (plain [.label (branchLabel (n + 1))])]
  | n, .print _ e => [.operand e n, .own (plain (straight [.print]))]
  | n, .call _ name args (some b) =>
    .own (plain (straight [.lfp])) :: segmentsReversed n args ++
      [.own ((callOutline name b []).drop 1)]
  | n, .send _ _ method args (some b) =>
    .own (plain (straight [.lfp])) :: segmentsReversed n args ++
      [.own ((sendOutline method b []).drop 1)]
  | n, .new _ cls args (some entry) =>
    segmentsAll n args ++ [.own (objectOutline cls entry args.length)]
  | n, e => [.own (e.outline n)]

theorem outlineAll_segmentsAll (n : Nat) (es : List Expr) :
    Segment.outlineAll (segmentsAll n es) = outlineAll n es := by
  induction es generalizing n with
  | nil => rfl
  | cons e es ih => simp [segmentsAll, outlineAll, Segment.outline, ih]

theorem segmentsAll_append (n : Nat) (es es' : List Expr) :
    segmentsAll n (es ++ es') = segmentsAll n es ++ segmentsAll (n + labelCountAll es) es' := by
  induction es generalizing n with
  | nil => rfl
  | cons e es ih => simp [segmentsAll, ih, labelCountAll, Nat.add_assoc]

theorem segmentsReversed_eq (n : Nat) (es : List Expr) :
    segmentsReversed n es = segmentsAll n es.reverse := by
  induction es with
  | nil => rfl
  | cons e es ih =>
    simp [segmentsReversed, ih, segmentsAll_append, labelCountAll_reverse, segmentsAll]

theorem outlineAll_segmentsReversed (n : Nat) (es : List Expr) :
    Segment.outlineAll (segmentsReversed n es) = outlineReversed n es := by
  rw [segmentsReversed_eq, outlineAll_segmentsAll, outlineReversed_eq]

theorem outlineAll_segments (n : Nat) (e : Expr) :
    Segment.outlineAll (e.segments n) = e.outline n := by
  fun_cases segments n e with
  | case5 n line op l r =>
    simp [Expr.outline_logic, Segment.outline]
  | _ =>
    simp [Expr.outline, Segment.outline, outlineAll_segmentsAll, outlineAll_segmentsReversed,
      callOutline, sendOutline]

theorem exprs_segmentsAll (n : Nat) (es : List Expr) :
    Segment.exprs (segmentsAll n es) = es := by
  induction es generalizing n with
  | nil => rfl
  | cons e es ih => simp [segmentsAll, ih]

theorem exprs_segmentsReversed (n : Nat) (es : List Expr) :
    Segment.exprs (segmentsReversed n es) = es.reverse := by
  rw [segmentsReversed_eq, exprs_segmentsAll]

@[simp] theorem ownCode_segmentsAll (n : Nat) (es : List Expr) :
    Segment.ownCode (segmentsAll n es) = [] := by
  induction es generalizing n with
  | nil => rfl
  | cons e es ih => simp [segmentsAll, ih]

@[simp] theorem ownCode_segmentsReversed (n : Nat) (es : List Expr) :
    Segment.ownCode (segmentsReversed n es) = [] := by
  rw [segmentsReversed_eq, ownCode_segmentsAll]

/-- What holds of an expression if it holds of its operands holds of all expressions. -/
theorem ind_segments {P : Expr → Prop}
    (h : ∀ e, (∀ n, ∀ e' ∈ Segment.exprs (e.segments n), P e') → P e) (e : Expr) : P e := by
  induction e using Expr.ind with
  | int | bool | null | ident => exact h _ fun n => by simp [segments]
  | arith line op l r hl hr => exact h _ fun n => by simp [segments, hl, hr]
  | compare line op l r hl hr => exact h _ fun n => by cases op <;> simp [segments, hl, hr]
  | logic line op l r hl hr => exact h _ fun n => by simp [segments, hl, hr]
  | not line e he => exact h _ fun n => by simp [segments, he]
  | cond line c t f hc ht hf => exact h _ fun n => by simp [segments, hc, ht, hf]
  | print line e he => exact h _ fun n => by simp [segments, he]
  | call line name args b hargs =>
    refine h _ fun n => ?_
    cases b with
    | none => simp [segments]
    | some b => simpa [segments, exprs_segmentsReversed] using hargs
  | send line receiver method args b hargs =>
    refine h _ fun n => ?_
    cases b with
    | none => simp [segments]
    | some b => simpa [segments, exprs_segmentsReversed] using hargs
  | new line cls args entry hargs =>
    refine h _ fun n => ?_
    cases entry with
    | none => simp [segments]
    | some entry => simpa [segments, exprs_segmentsAll] using hargs

end Expr

end ObjectLang
