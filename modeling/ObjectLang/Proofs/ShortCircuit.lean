import ObjectLang.Proofs.Code.Labels
import ObjectLang.Proofs.Code.Places
import ObjectLang.Proofs.Machine.Stepping

/-!
# Short-circuit evaluation

The code of `l && r` or `l || r` is that of `l`, a test of its value, the code of `r`, and an end
that makes the value `0` or `1`.  Where the value of `l` decides, the code of `r` is never entered.

Nothing of this depends on what the operands are or where the connective stands.  The labels of the
connective are defined once in the code of the whole program, so that a branch to one of them leads
to where it stands (`LogicOp.test_of_placed`, `LogicOp.finish_of_placed`), and from there on the
machine is followed from any state (`LogicOp.shortCircuits`).
-/

namespace ObjectLang

open Piece (plain)

/-! ### Connectives -/

namespace LogicOp

/-- The value of a connective that is settled by its first operand. -/
def verdict : LogicOp → Int64
  | and => 0
  | or => 1

/-- What the code of a connective does around its operands.  Its test starts at one address, the
code of the second operand at another, what comes after it at a third, and the fourth is the
end. -/
structure ShortCircuits (op : LogicOp) (code : Array (Op Nat)) (test right finish stop : Nat) :
    Prop where
  /-- The second operand is skipped. -/
  decided : ∀ {s : Machine.State} {v : Int64}, s.ip = test → s.peek = .ok v → s.HasRoom →
    op.Decides v → ∃ as t, Machine.Executes code as s t ∧ (∀ a ∈ as, a < right ∨ finish ≤ a) ∧
      t.ip = stop ∧ t.sp = s.sp ∧ t.peek = .ok op.verdict ∧ s.KeepsRest t
  /-- The second operand is evaluated. -/
  undecided : ∀ {s : Machine.State} {v : Int64}, s.ip = test → s.peek = .ok v → s.HasRoom →
    ¬ op.Decides v → ∃ as t, Machine.Executes code as s t ∧
      t.ip = right ∧ t.sp = s.sp + 1 ∧ s.KeepsRest t
  /-- The value of the second operand becomes `0` or `1`. -/
  evaluated : ∀ {s : Machine.State} {w : Int64}, s.ip = finish → s.peek = .ok w → s.HasRoom →
    ∃ as t, Machine.Executes code as s t ∧
      t.ip = stop ∧ t.sp = s.sp ∧ t.peek = .ok (if w = 0 then 0 else 1) ∧ s.KeepsRest t
  /-- Without room the run is out of memory, so that nothing else can go wrong. -/
  full : ∀ {s : Machine.State} {v : Int64}, s.ip = test ∨ s.ip = finish → s.peek = .ok v →
    ¬ s.HasRoom → ∃ n ≤ 1, ∃ t, Machine.Takes code n s t ∧ Machine.OutOfMemory code t

/-- The operations after the operands, which are the same for both connectives: push `1` and leave,
or push `0`. -/
structure Finish (code : Array (Op Nat)) (i : Nat) : Prop where
  push : code[i]? = some (.push 0)
  branch : code[i + 1]? = some (.beq (i + 4))
  one : code[i + 2]? = some (.push 1)
  leave : code[i + 3]? = some (.b (i + 5))
  zero : code[i + 4]? = some (.push 0)

/-- The operations between the operands. -/
def Test (op : LogicOp) (code : Array (Op Nat)) (i right finish : Nat) : Prop :=
  code[i]? = some (.push 0) ∧
    match op with
    | and => right = i + 2 ∧ code[i + 1]? = some (.beq (finish + 4))
    | or => right = i + 3 ∧ code[i + 1]? = some (.beq right) ∧
      code[i + 2]? = some (.b (finish + 2))

section

variable {op : LogicOp} {code : Array (Op Nat)} {i right finish : Nat} {s : Machine.State}
  {v : Int64}

theorem Finish.executes_one (h : Finish code i) (hv : s.peek = .ok v) (hroom : s.HasRoom) :
    Machine.Executes code [i + 2, i + 3] (s.tested 0 (i + 2)) (s.answered 0 1 (i + 5)) :=
  (Machine.executes_answer hv hroom h.one).trans (Machine.executes_leave hroom h.leave)

theorem Finish.executes_zero (h : Finish code i) (hv : s.peek = .ok v) (hroom : s.HasRoom) :
    Machine.Executes code [i + 4] (s.tested 0 (i + 4)) (s.answered 0 0 (i + 5)) :=
  Machine.executes_answer hv hroom h.zero

/-- The operations between and after the operands are all that matters. -/
theorem shortCircuits (htest : op.Test code i right finish) (hfinish : Finish code finish)
    (hle : right ≤ finish) : op.ShortCircuits code i right finish (finish + 5) where
  decided := by
    rintro s v rfl hv hroom hdecides
    cases op with
    | and =>
      obtain ⟨h₀, hright, h₁⟩ := htest
      have hskip := Machine.executes_test hv hroom h₀ h₁
      rw [if_pos (show v = 0 from hdecides)] at hskip
      refine ⟨_, _, hskip.trans (hfinish.executes_zero hv hroom), ?_, rfl, rfl,
        Machine.peek_answered hv, Machine.keepsRest_answered hroom⟩
      simp only [List.cons_append, List.nil_append, List.forall_mem_cons, List.not_mem_nil,
        false_implies, implies_true, and_true]
      omega
    | or =>
      obtain ⟨h₀, hright, h₁, h₂⟩ := htest
      have hskip := Machine.executes_test hv hroom h₀ h₁
      rw [if_neg (show ¬ v = 0 from hdecides)] at hskip
      have hone := (Machine.executes_skip (c := 0) hv hroom h₂).trans
        (hfinish.executes_one hv hroom)
      refine ⟨_, _, hskip.trans hone, ?_, rfl, rfl, Machine.peek_answered hv,
        Machine.keepsRest_answered hroom⟩
      simp only [List.cons_append, List.nil_append, List.forall_mem_cons, List.not_mem_nil,
        false_implies, implies_true, and_true]
      omega
  undecided := by
    rintro s v rfl hv hroom hdecides
    cases op with
    | and =>
      obtain ⟨h₀, hright, h₁⟩ := htest
      have hgo := Machine.executes_test hv hroom h₀ h₁
      rw [if_neg (show ¬ v = 0 from hdecides)] at hgo
      exact ⟨_, _, hgo, hright.symm, rfl, Machine.keepsRest_tested hroom⟩
    | or =>
      obtain ⟨h₀, hright, h₁, -⟩ := htest
      have hgo := Machine.executes_test hv hroom h₀ h₁
      rw [if_pos (show v = 0 from Decidable.not_not.1 hdecides)] at hgo
      exact ⟨_, _, hgo, rfl, rfl, Machine.keepsRest_tested hroom⟩
  evaluated := by
    rintro s w rfl hv hroom
    have hexecutes := Machine.executes_test hv hroom hfinish.push hfinish.branch
    by_cases hw : w = 0
    · rw [if_pos hw] at hexecutes
      refine ⟨_, _, hexecutes.trans (hfinish.executes_zero hv hroom), rfl, rfl, ?_,
        Machine.keepsRest_answered hroom⟩
      rw [if_pos hw]
      exact Machine.peek_answered hv
    · rw [if_neg hw] at hexecutes
      refine ⟨_, _, hexecutes.trans (hfinish.executes_one hv hroom), rfl, rfl, ?_,
        Machine.keepsRest_answered hroom⟩
      rw [if_neg hw]
      exact Machine.peek_answered hv
  full := by
    rintro s v hip hv hroom
    refine Machine.outOfMemory_of_push hv hroom (c := 0) ?_
    rcases hip with hip | hip
    · exact hip ▸ htest.1
    · exact hip ▸ hfinish.push

end

/-! ### Connectives in the code of a program -/

section

variable {op : LogicOp} {code : Array (Op Nat)} {img : Image} {size i n : Nat}
  (hlinks : Segmented.Links size img code)
include hlinks

theorem getElem?_of_piece {o : Op Label} (h : img.piece i = some (.instr (.op o))) :
    code[i]? = some (o.link img.address) := by
  obtain ⟨o', ho', hcode⟩ := hlinks.op h
  cases ho'
  exact hcode

theorem finish_of_placed (h : img.Placed i (plain (op.finish n))) : Finish code i := by
  have hop {j : Nat} {o : Op Label} := getElem?_of_piece hlinks (i := j) (o := o)
  obtain ⟨no, stop, hend⟩ := ending_of_placed h
  obtain ⟨hpush, hbranch, -⟩ := hend.test
  exact ⟨hop hpush, hend.no_eq ▸ hop hbranch, hop hend.one, hend.stop_eq ▸ hop hend.leave,
    hop hend.zero⟩

theorem test_of_placed {j : Nat} (h : img.Placed i (plain (op.test n)))
    (hfinish : img.Placed j (plain (op.finish n))) :
    op.Test code i (i + width (plain (op.test n))) j := by
  have hop {k : Nat} {o : Op Label} := getElem?_of_piece hlinks (i := k) (o := o)
  obtain ⟨l, ⟨hpush, hbranch, -⟩, hrest⟩ := branching_of_placed h hfinish
  refine ⟨hop hpush, ?_⟩
  cases op with
  | and =>
    obtain ⟨hright, hno⟩ := hrest
    exact ⟨hright, hno ▸ hop hbranch⟩
  | or =>
    obtain ⟨hright, hon, yes, hskip, hyes⟩ := hrest
    exact ⟨hright, hon ▸ hop hbranch, hyes ▸ hop hskip⟩

/-- The code of a connective does what it should wherever it stands. -/
theorem shortCircuits_of_placed {before left right after : List Piece}
    (h : img.Placed 0
      (before ++ left ++ plain (op.test n) ++ right ++ plain (op.finish n) ++ after)) :
    op.ShortCircuits code (width (before ++ left)) (width (before ++ left ++ plain (op.test n)))
      (width (before ++ left ++ plain (op.test n) ++ right))
      (width (before ++ left ++ plain (op.test n) ++ right ++ plain (op.finish n))) := by
  simp only [Image.placed_append, Nat.zero_add] at h
  obtain ⟨⟨⟨⟨-, htest⟩, -⟩, hfinish⟩, -⟩ := h
  have htests := test_of_placed hlinks htest hfinish
  rw [← width_append] at htests
  have hle : width (before ++ left ++ plain (op.test n)) ≤
      width (before ++ left ++ plain (op.test n) ++ right) := by
    rw [width_append _ right]
    exact Nat.le_add_right _ _
  rw [width_append _ (plain (op.finish n)), width_finish]
  exact shortCircuits htests (finish_of_placed hlinks hfinish) hle

end

end LogicOp

namespace Program

/-- **Short-circuit evaluation.**  Every part of a program for which code is emitted has its place
in the code, and the code can be assembled.  At every place of a connective stands the code of its
first operand, a test, the code of its second operand and an end, and from any state at the test or
at the end that has a word on its stack, the machine does what `LogicOp.ShortCircuits` says, or is
out of memory. -/
theorem shortCircuits_of_emit {p : Program} {memorySize : Nat} {code : Listing}
    (h : p.emit memorySize = .ok code) :
    (∀ root ∈ p.exprs, ∀ e, e.Within root → ∃ x, p.Occurs x ∧ x.expr = e) ∧
    ∃ ops, code.assemble = .ok ops ∧
      ∀ {x : Place} {line : SourceLine} {op : LogicOp} {l r : Expr}, p.Occurs x →
        x.expr = .logic line op l r → ∃ before left right after : Listing,
          code = before ++ left ++ op.test x.labels ++ right ++ op.finish x.labels ++ after ∧
          before.ops.length = x.start ∧ x.expr.emit memorySize x.labels =
            .ok (left ++ op.test x.labels ++ right ++ op.finish x.labels) ∧
          l.emit memorySize (x.labels + op.labelCount) = .ok left ∧
          r.emit memorySize (x.labels + op.labelCount + l.labelCount) = .ok right ∧
          op.ShortCircuits ops.toArray (Listing.ops (before ++ left)).length
            (Listing.ops (before ++ left ++ op.test x.labels)).length
            (Listing.ops (before ++ left ++ op.test x.labels ++ right)).length
            (Listing.ops (before ++ left ++ op.test x.labels ++ right ++
              op.finish x.labels)).length := by
  refine ⟨fun root hroot e he => exists_occurs h hroot he, ?_⟩
  obtain ⟨ops, hops, hplaced, hlinks⟩ := p.assemble_outline memorySize
  refine ⟨ops, eq_outline h ▸ hops, ?_⟩
  intro x line op l r hx hexpr
  obtain ⟨before, after, houtline, hstart⟩ := hx.outline_eq
  have hemitted := (hexpr ▸ hx.emitted h : (Expr.logic line op l r).Emitted).operands
  have hown : x.expr.outline x.labels = l.outline (x.labels + op.labelCount) ++
      plain (op.test x.labels) ++ r.outline (x.labels + op.labelCount + l.labelCount) ++
      plain (op.finish x.labels) := by
    rw [← Expr.outlineAll_segments, hexpr]
    simp [Expr.segments, Segment.outline]
  generalize Image.ofPieces p.outline = img at hplaced hlinks
  rw [houtline, hown] at hplaced
  simp only [← List.append_assoc] at hplaced
  have hcircuit := LogicOp.shortCircuits_of_placed hlinks hplaced
  simp only [← length_ops_erase memorySize, List.map_append, Piece.map_erase_plain] at hcircuit
  refine ⟨_, _, _, after.map (Piece.erase memorySize), ?_, ?_, ?_,
    (hemitted l (by simp [Expr.operands])).emit_eq _ _,
    (hemitted r (by simp [Expr.operands])).emit_eq _ _, hcircuit⟩
  · rw [eq_outline h, houtline, hown]
    simp only [List.map_append, Piece.map_erase_plain, List.append_assoc]
  · rw [length_ops_erase, hstart]
  · rw [(hx.emitted h).emit_eq, hown]
    simp only [List.map_append, Piece.map_erase_plain]

/-- A function with one connective inside another one. -/
def nested : Program :=
  .letIn [] [.fn ⟨"f", [], .bool, [],
    .logic 1 .or (.logic 1 .and (.bool 1 false) (.print 1 (.bool 1 true))) (.bool 1 true), 1, none⟩]
    (.bool 2 true)

/-- The place of the inner connective. -/
def nestedPlace : Place := ⟨.logic 1 .and (.bool 1 false) (.print 1 (.bool 1 true)), 4, 6⟩

/-- A state at the test of the inner connective, with a word on top of the stack. -/
def nestedState (v : Int64) : Machine.State :=
  ⟨#[0, 0, 0, 0, 0, 0, 0, v, 3, 4], 7, 7, 9, 0, 3, 0, #[]⟩

theorem shortCircuits_of_emit_nested : ∃ code ops, nested.emit 10 = .ok code ∧
    code.assemble = .ok ops ∧ nested.Occurs nestedPlace ∧
    (∃ as t, Machine.Executes ops.toArray as (nestedState 0) t ∧ (∀ a ∈ as, a < 9 ∨ 11 ≤ a) ∧
      t.ip = 16 ∧ t.peek = .ok 0) ∧
    ∃ as t, Machine.Executes ops.toArray as (nestedState 5) t ∧ t.ip = 9 ∧ t.sp = 8 := by
  obtain ⟨code, hcode⟩ : ∃ code, nested.emit 10 = .ok code := ⟨_, rfl⟩
  have hplace : nested.Occurs nestedPlace :=
    .operand (.root (.tail _ (.head _))) (.head _)
  obtain ⟨-, ops, hops, hplaces⟩ := shortCircuits_of_emit hcode
  obtain ⟨before, left, right, after, -, hstart, -, hleft, hright, hcircuit⟩ := hplaces hplace rfl
  cases hleft
  cases hright
  simp only [Listing.ops, List.filterMap_append, List.length_append] at hstart hcircuit
  rw [hstart] at hcircuit
  obtain ⟨as, t, hskip, hnever, hip, -, hpeek, -⟩ :=
    hcircuit.decided (s := nestedState 0) (v := 0) rfl rfl (by decide) (by decide)
  obtain ⟨bs, u, hgo, hip', hsp, -⟩ :=
    hcircuit.undecided (s := nestedState 5) (v := 5) rfl rfl (by decide) (by decide)
  exact ⟨code, ops, hcode, hops, hplace, ⟨as, t, hskip, hnever, hip, hpeek⟩, bs, u, hgo, hip', hsp⟩

end Program

end ObjectLang
