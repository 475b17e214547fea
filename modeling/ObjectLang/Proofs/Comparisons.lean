import ObjectLang.Proofs.Safety

/-!
# Comparisons of literals

Equality and `<=` are compiled to a branch that compares two words as integers.  There is no such
branch for `>=`, so `l >= r` is compiled to a comparison of the difference of `r` and `l` with zero.
The machine's subtraction wraps around, and where the difference is out of the range of words the
answer is the wrong one (`Program.run_of_compare`).
-/

namespace ObjectLang

open Reference (truth)

namespace CompareOp

/-- The relation that an operator stands for. -/
def Holds : CompareOp → Int → Int → Prop
  | eq, a, b => a = b
  | le, a, b => a ≤ b
  | ge, a, b => a ≥ b

instance : (op : CompareOp) → (a b : Int) → Decidable (op.Holds a b)
  | eq, a, b => inferInstanceAs (Decidable (a = b))
  | le, a, b => inferInstanceAs (Decidable (a ≤ b))
  | ge, a, b => inferInstanceAs (Decidable (a ≥ b))

/-- The operator takes the difference of its operands, and there is no word for it. -/
def Overflows (op : CompareOp) (a b : Int64) : Prop :=
  op = ge ∧ ¬ (Int64.minValue.toInt ≤ b.toInt - a.toInt ∧
    b.toInt - a.toInt ≤ Int64.maxValue.toInt)

instance (op : CompareOp) (a b : Int64) : Decidable (op.Overflows a b) :=
  inferInstanceAs (Decidable (_ ∧ _))

/-- What an operator gives for two words. -/
def answer : CompareOp → Int64 → Int64 → Bool
  | eq, a, b => a == b
  | le, a, b => decide (a ≤ b)
  | ge, a, b => decide (b - a ≤ 0)

/-- The answer is the right one unless there is an overflow, and then it is not. -/
theorem answer_eq_true_iff (op : CompareOp) (a b : Int64) :
    op.answer a b = true ↔ (op.Holds a.toInt b.toInt ↔ ¬ op.Overflows a b) := by
  cases op with
  | eq => simp [answer, Holds, Overflows, Int64.toInt_inj]
  | le => simp [answer, Holds, Overflows, Int64.le_iff_toInt_le]
  | ge =>
    have hdiff : (b - a).toInt = (b.toInt - a.toInt).bmod (2 ^ 64) := Int64.toInt_sub b a
    have ha := a.minValue_le_toInt
    have ha' := a.toInt_le
    have hb := b.minValue_le_toInt
    have hb' := b.toInt_le
    rw [Int.bmod_def] at hdiff
    simp only [answer, Holds, Overflows, true_and, not_not, decide_eq_true_eq,
      Int64.le_iff_toInt_le, hdiff, Int64.toInt_zero]
    simp only [Int64.toInt_minValue, Int64.toInt_maxValue] at ha ha' hb hb' ⊢
    omega

theorem truth_answer_of_not_overflows {op : CompareOp} {a b : Int64} (h : ¬ op.Overflows a b) :
    truth (op.answer a b) = if op.Holds a.toInt b.toInt then 1 else 0 := by
  have hanswer : op.answer a b = true ↔ op.Holds a.toInt b.toInt := by
    rw [answer_eq_true_iff, iff_true_right h]
  simp only [truth, hanswer]

theorem truth_answer_of_overflows {op : CompareOp} {a b : Int64} (h : op.Overflows a b) :
    truth (op.answer a b) = if op.Holds a.toInt b.toInt then 0 else 1 := by
  have hanswer : op.answer a b = true ↔ ¬ op.Holds a.toInt b.toInt := by
    rw [answer_eq_true_iff, iff_false_right (not_not_intro h)]
  simp only [truth, hanswer, ite_not]

end CompareOp

namespace Program

variable {p : Program} {op : CompareOp} {line l₁ l₂ : SourceLine} {a b : Int64}

section Literals

variable (hclasses : p.classes = []) (hdecls : p.decls = [])
  (hmain : p.main = .compare line op (.int l₁ a) (.int l₂ b))
include hclasses hdecls hmain

/-- A program that compares two literals, with and without the let form. -/
theorem eq_of_compare : p = .body (.compare line op (.int l₁ a) (.int l₂ b)) ∨
    p = .letIn [] [] (.compare line op (.int l₁ a) (.int l₂ b)) := by
  cases p with
  | body main => exact .inl (congrArg Program.body hmain)
  | letIn classes decls main =>
    obtain rfl : classes = [] := hclasses
    obtain rfl : decls = [] := hdecls
    exact .inr (congrArg (Program.letIn [] []) hmain)

theorem compile_compare (options : Options) :
    ∃ c, p.compile options = .ok c ∧ c.ty = some .bool ∧ c.code.length ≤ 12 := by
  obtain rfl | rfl := eq_of_compare hclasses hdecls hmain <;> cases op <;>
    exact ⟨_, rfl, rfl, Nat.le_of_ble_eq_true rfl⟩

theorem evaluate_compare : ∃ σ, p.evaluate 0 = .ok (truth (op.answer a b), σ) ∧ σ.output = [] := by
  obtain rfl | rfl := eq_of_compare hclasses hdecls hmain <;> cases op <;> exact ⟨_, rfl, rfl⟩

end Literals

/-- **What comparisons of literals give.**  A program that compares two literals compiles, and with
enough memory and steps its run leaves `1` or `0` on top of the stack: `1` exactly if the literals
are related as integers, except for `>=` with a difference that is out of range, where it is the
other way round. -/
theorem run_of_compare (hclasses : p.classes = []) (hdecls : p.decls = [])
    (hmain : p.main = .compare line op (.int l₁ a) (.int l₂ b)) :
    ∃ steps, ∀ {memorySize maxSteps : Nat}, 12 < memorySize → memorySize < 2 ^ 63 →
      steps < maxSteps →
      ∃ c e, p.compile ⟨memorySize, ⟨memorySize, maxSteps⟩⟩ = .ok c ∧ c.ty = some .bool ∧
        c.run = .ok e ∧ e.output = [] ∧
        (¬ op.Overflows a b → e.top? = some (if op.Holds a.toInt b.toInt then 1 else 0)) ∧
        (op.Overflows a b → e.top? = some (if op.Holds a.toInt b.toInt then 0 else 1)) := by
  obtain ⟨c, hc, -, hlen⟩ := compile_compare hclasses hdecls hmain .standard
  obtain ⟨σ, heval, houtput⟩ := evaluate_compare hclasses hdecls hmain
  have haccepted : p.Accepted True False :=
    accepted_of_compile hc (by omega) False.elim (by simp [hclasses]) fun _ => trivial
  obtain ⟨n, hn⟩ := haccepted.halts hclasses heval
  refine ⟨n, fun {memorySize maxSteps} hmemory hsize hsteps => ?_⟩
  obtain ⟨c', hc', hty, -⟩ :=
    compile_compare hclasses hdecls hmain ⟨memorySize, ⟨memorySize, maxSteps⟩⟩
  obtain ⟨ops, hops, hrun⟩ := run_of_compile hc'
  have hwidth : (Image.ofPieces p.bind.outline).size ≤ 12 := by
    refine Nat.le_trans List.countP_le_length ?_
    rwa [code_eq_outline hc, List.length_map] at hlen
  obtain ⟨s, vs, htakes, -, hstops⟩ := hn hsize (by omega) (links_of_compile hc' hops)
  have hresult := hrun.trans (htakes.runFrom_stops hstops maxSteps hsteps)
  refine ⟨c', _, hc', hty, hresult, houtput, ?_, ?_⟩
  · intro hfits
    rw [← CompareOp.truth_answer_of_not_overflows hfits, Machine.Execution.top?,
      List.getLast?_concat]
  · intro hover
    rw [← CompareOp.truth_answer_of_overflows hover, Machine.Execution.top?, List.getLast?_concat]

/-- The least word compared with one, and with the greatest word. -/
theorem run_of_compare_minValue :
    (∃ steps, ∀ {memorySize maxSteps : Nat}, 12 < memorySize → memorySize < 2 ^ 63 →
      steps < maxSteps →
      ∃ c e, (Program.body (.compare 0 .ge (.int 0 Int64.minValue) (.int 0 1))).compile
        ⟨memorySize, ⟨memorySize, maxSteps⟩⟩ = .ok c ∧ c.run = .ok e ∧ e.top? = some 1) ∧
    ∃ steps, ∀ {memorySize maxSteps : Nat}, 12 < memorySize → memorySize < 2 ^ 63 →
      steps < maxSteps →
      ∃ c e, (Program.letIn [] [] (.compare 0 .le (.int 0 Int64.minValue)
        (.int 0 Int64.maxValue))).compile ⟨memorySize, ⟨memorySize, maxSteps⟩⟩ = .ok c ∧
          c.run = .ok e ∧ e.top? = some 1 := by
  constructor
  · obtain ⟨steps, hsteps⟩ := run_of_compare (p := .body (.compare 0 .ge (.int 0 Int64.minValue)
      (.int 0 1))) rfl rfl rfl
    refine ⟨steps, fun hmemory hsize hmax => ?_⟩
    obtain ⟨c, e, hc, -, hrun, -, -, htop⟩ := hsteps hmemory hsize hmax
    exact ⟨c, e, hc, hrun, htop (by decide)⟩
  · obtain ⟨steps, hsteps⟩ := run_of_compare (p := .letIn [] [] (.compare 0 .le
      (.int 0 Int64.minValue) (.int 0 Int64.maxValue))) rfl rfl rfl
    refine ⟨steps, fun hmemory hsize hmax => ?_⟩
    obtain ⟨c, e, hc, -, hrun, -, htop, -⟩ := hsteps hmemory hsize hmax
    exact ⟨c, e, hc, hrun, htop (by decide)⟩

/-- The least word is not at least one, but this is the answer of `>=`. -/
theorem minValue_ge_one :
    ¬ CompareOp.ge.Holds Int64.minValue.toInt (1 : Int64).toInt ∧
    ∃ c, (Program.body (.compare 0 .ge (.int 0 Int64.minValue) (.int 0 1))).compile
      ⟨60, ⟨60, 1000⟩⟩ = .ok c ∧ c.run = .ok ⟨[], [1]⟩ :=
  ⟨by decide, exists_ok_of_decide (by decide +kernel)⟩

end Program

end ObjectLang
