import ObjectLang.Proofs.Simulation.Outcome

/-!
# Code of operators

The code of an expression does what the evaluation of the expression does: it leaves its value on
the stack, and the value is of the type that the checker has inferred (`World.Computes`).  This file
shows it for literals and for every operator whose operands compute.
-/

namespace ObjectLang

open Reference
open Segmented (Word State Grows)
open Piece (plain)

namespace World

variable (K : World)

/-- The code of an expression stands at an address, and nothing is wrong with the expression. -/
structure Runnable (env : Env) (n i : Nat) (e : Expr) (ty : Ty) : Prop where
  placed : K.img.Placed i ((e.bind env).outline n)
  inside : i + width ((e.bind env).outline n) < K.img.size
  names : e.nameErrors env = []
  types : (e.bind env).infer K.hierarchy = .ok ty
  nulls : e.mentionsNull = true → K.nulls

/-- The run of an expression's code does what its evaluation does. -/
def Computes (fuel : Nat) (call : Routine → Context → List Int64 → Eval Int64) (e : Expr) : Prop :=
  ∀ {env : Env} {ρ : Context} {chain : List Word} {n : Nat} {s : State} {σ : Store} {ty : Ty},
    K.Runnable env n s.ip e ty → K.Situated s σ fuel env ρ chain →
      K.Simulates fuel s (eval K.references call ρ e σ) fun v τ t =>
        K.Advance s σ [.plain v] (s.ip + width ((e.bind env).outline n)) t τ ∧ K.Holds τ ty v

variable {K} {fuel : Nat} {call : Routine → Context → List Int64 → Eval Int64}

/-! ### Fragments -/

/-- One operation that replaces words on the stack. -/
theorem run_replace {s t : State} {σ τ : Store} (hs : K.Sound s σ) (hlow : K.Low s)
    {ws ws' : List Word} {i : Nat} (h : K.Advance s σ ws i t τ) {o : Op Label}
    (hp : K.img.piece i = some (.instr (.op o)))
    (hx : Segmented.execute K.img { t with ip := t.ip + 1 } o =
      .next { t with stack := ws' ++ s.stack, ip := t.ip + 1 })
    (hle : ws'.length ≤ ws.length + 1) :
    ∃ u, K.Run 1 t u ∧ K.Advance s σ ws' (i + 1) u τ := by
  have hf := h.forward
  refine ⟨_, run_op (h.low hlow) (by rw [h.ip]; exact hp) hx,
    h.replace hs rfl ?_ rfl rfl rfl rfl rfl (by omega)⟩
  simp only [h.ip]

/-- Whether a branch is taken, as a truth value. -/
theorem run_branchValue {s t : State} {σ τ : Store} (hs : K.Sound s σ) (hlow : K.Low s)
    {a b : Int64} {i n : Nat} (h : K.Advance s σ [.plain b, .plain a] i t τ)
    {branch : Label → Op Label}
    {related : Int64 → Int64 → Bool}
    (hb : ∀ l u, Segmented.execute K.img u (branch l) = u.branch related (K.img.address l))
    (hp : K.img.Placed i (plain (branchValue branch n))) :
    ∃ m u, K.Run m t u ∧ K.Advance s σ [.plain (truth (related a b))] (i + 4) u τ := by
  simp only [branchValue, straight_cons, straight_nil, plain_cons, plain_nil, List.cons_append,
    List.nil_append, Image.placed_op, Image.placed_label, Image.placed_nil, and_true] at hp
  obtain ⟨hbranch, hzero, hgoto, hyes, hone, hend⟩ := hp
  have hst : t.stack = .plain b :: .plain a :: s.stack := h.stack
  have hip := h.ip
  have hf : 2 + s.ip ≤ i := h.forward
  have hlow' := hlow
  unfold Low at hlow'
  have htake : K.Run 1 t { t with
      stack := s.stack
      ip := if related a b then K.img.address (branchLabel n) else t.ip + 1 } := by
    refine run_op (h.low hlow) (by rw [hip]; exact hbranch) ?_
    simp only [hb, State.branch, hst]
  cases hr : related a b with
  | true =>
    rw [hr] at htake
    have hpush : K.Run 1 { t with stack := s.stack, ip := K.img.address (branchLabel n) }
        { t with stack := .plain 1 :: s.stack, ip := i + 4 } := by
      refine run_op (o := .push 1) ?_ (by rw [hyes]; exact hone) ?_
      · simp only [Low, hyes]
        omega
      · simp only [Segmented.execute, State.push, hyes]
    refine ⟨2, _, htake.trans hpush, h.replace hs rfl rfl rfl rfl rfl rfl rfl ?_⟩
    simp only [List.length_singleton]
    omega
  | false =>
    rw [hr] at htake
    have hpush : K.Run 1 { t with stack := s.stack, ip := t.ip + 1 }
        { t with stack := .plain 0 :: s.stack, ip := i + 2 } := by
      refine run_op (o := .push 0) ?_ (by simp only [hip]; exact hzero) ?_
      · simp only [Low, hip]
        omega
      · simp only [Segmented.execute, State.push, hip]
    have hjump : K.Run 1 { t with stack := .plain 0 :: s.stack, ip := i + 2 }
        { t with stack := .plain 0 :: s.stack, ip := i + 4 } := by
      refine run_op (o := .b (branchLabel (n + 1))) ?_ hgoto ?_
      · simp only [Low, List.length_cons]
        omega
      · simp only [Segmented.execute, hend]
    refine ⟨3, _, (htake.trans hpush).trans hjump, h.replace hs rfl rfl rfl rfl rfl rfl rfl ?_⟩
    simp only [List.length_singleton]
    omega

/-- Two operands, one after the other. -/
theorem Computes.both {e₁ e₂ : Expr} (c₁ : K.Computes fuel call e₁) (c₂ : K.Computes fuel call e₂)
    {env : Env} {ρ : Context} {chain : List Word} {n₁ n₂ : Nat} {s : State} {σ : Store}
    {ty₁ ty₂ : Ty} (h₁ : K.Runnable env n₁ s.ip e₁ ty₁)
    (h₂ : K.Runnable env n₂ (s.ip + width ((e₁.bind env).outline n₁)) e₂ ty₂)
    (hs : K.Situated s σ fuel env ρ chain) {f : Int64 → Int64 → Eval Int64}
    {P : Int64 → Store → State → Prop}
    (hf : ∀ {a b : Int64} {t : State} {τ : Store},
      K.Advance s σ [.plain b, .plain a] (s.ip + width ((e₁.bind env).outline n₁) +
        width ((e₂.bind env).outline n₂)) t τ → K.Simulates fuel t (f a b τ) P) :
    K.Simulates fuel s ((do
      let a ← eval K.references call ρ e₁
      let b ← eval K.references call ρ e₂
      f a b : Eval Int64) σ) P := by
  refine .bind ((c₁ h₁ hs).mono ?_)
  rintro a τ t ⟨ha, -⟩
  have h₂' : K.Runnable env n₂ t.ip e₂ ty₂ := ha.ip ▸ h₂
  refine .bind ((c₂ h₂' (hs.advance ha)).mono ?_)
  rintro b υ u ⟨hb, -⟩
  rw [ha.ip] at hb
  exact hf (ha.trans hb)

/-- A literal. -/
theorem run_literal {s : State} {σ : Store} (hs : K.Sound s σ) (hlow : K.Low s) {v : Int64}
    (hp : K.img.Placed s.ip (plain (straight [.push v]))) :
    ∃ t, K.Run 1 s t ∧ K.Advance s σ [.plain v] (s.ip + 1) t σ :=
  ⟨_, run_straight hlow [.push v] rfl hp rfl,
    (Advance.refl hs).replace hs rfl rfl rfl rfl rfl rfl rfl (Nat.add_comm _ _).le⟩

/-- A test whether the value on the stack is a given word. -/
theorem run_test {s t : State} {σ τ : Store} (hs : K.Sound s σ) (hlow : K.Low s) {a c : Int64}
    {i : Nat} {l : Label} (h : K.Advance s σ [.plain a] i t τ)
    (hp : K.img.Placed i (plain (straight [.push c, .beq l]))) (hl : i ≤ K.img.address l) :
    ∃ u, K.Run 2 t u ∧ K.Advance s σ [] (if a = c then K.img.address l else i + 2) u τ := by
  simp only [straight_cons, straight_nil, plain_cons, plain_nil, Image.placed_op,
    Image.placed_nil, and_true] at hp
  have hst : t.stack = .plain a :: s.stack := h.stack
  have hip := h.ip
  have hf : 1 + s.ip ≤ i := h.forward
  have hlow' := h.low hlow
  have hpush : K.Run 1 t { t with stack := .plain c :: t.stack, ip := t.ip + 1 } :=
    run_op hlow' (o := .push c) (by rw [hip]; exact hp.1) rfl
  have hbranch : K.Run 1 { t with stack := .plain c :: t.stack, ip := t.ip + 1 }
      { t with stack := s.stack, ip := if a = c then K.img.address l else t.ip + 2 } := by
    refine run_op (o := .beq l) ?_ (by simp only [hip]; exact hp.2) ?_
    · unfold Low at hlow' ⊢
      simp only [List.length_cons]
      omega
    · simp only [Segmented.execute, State.branch, hst, beq_iff_eq]
  refine ⟨_, hpush.trans hbranch, h.replace hs rfl (by simp only [hip]) rfl rfl rfl rfl rfl ?_⟩
  simp only [List.length_nil]
  split <;> omega

/-- A branch. -/
theorem run_goto {s t : State} {σ τ : Store} (hlow : K.Low s) {ws : List Word} {i : Nat}
    {l : Label} (h : K.Advance s σ ws i t τ) (hp : K.img.piece i = some (.instr (.op (.b l))))
    (hl : i ≤ K.img.address l) :
    ∃ u, K.Run 1 t u ∧ K.Advance s σ ws (K.img.address l) u τ := by
  have hrun : K.Run 1 t { t with ip := K.img.address l } :=
    run_op (h.low hlow) (o := .b l) (by rw [h.ip]; exact hp) rfl
  have hsound : K.Sound { t with ip := K.img.address l } τ :=
    h.sound.push List.suffix_rfl rfl rfl rfl rfl
  exact ⟨_, hrun, ⟨h.stack, rfl, h.fp, h.heap, h.store, hsound⟩, h.forward.trans hl⟩

/-- A word pushed after what has been done. -/
theorem run_push {s t : State} {σ τ : Store} (hlow : K.Low s) {ws : List Word} {i : Nat}
    {v : Int64} (h : K.Advance s σ ws i t τ)
    (hp : K.img.piece i = some (.instr (.op (.push v)))) :
    ∃ u, K.Run 1 t u ∧ K.Advance s σ (.plain v :: ws) (i + 1) u τ := by
  obtain ⟨u, hu, hadv⟩ := run_literal (v := v) h.sound (s := t) (h.low hlow)
    (by rw [h.ip]; exact ⟨hp, trivial⟩)
  rw [h.ip] at hadv
  exact ⟨u, hu, h.trans hadv⟩

/-! ### Operators -/

attribute [local simp] Expr.bind Expr.infer

theorem computes_int (line : SourceLine) (v : Int64) : K.Computes fuel call (.int line v) := by
  intro env ρ chain n s σ ty h hs
  obtain ⟨hp, -, -, ht, -⟩ := h
  obtain ⟨t, hrun, hadv⟩ := run_literal hs.sound hs.low hp
  obtain rfl : .int = ty := by simpa using ht
  exact .ok hrun ⟨hadv, trivial⟩

theorem computes_bool (line : SourceLine) (b : Bool) : K.Computes fuel call (.bool line b) := by
  intro env ρ chain n s σ ty h hs
  obtain ⟨hp, -, -, ht, -⟩ := h
  obtain ⟨t, hrun, hadv⟩ := run_literal hs.sound hs.low hp
  obtain rfl : .bool = ty := by simpa using ht
  exact .ok hrun ⟨hadv, .truth b⟩

theorem computes_null (line : SourceLine) : K.Computes fuel call (.null line) := by
  intro env ρ chain n s σ ty h hs
  obtain ⟨hp, -, -, ht, hnull⟩ := h
  obtain ⟨t, hrun, hadv⟩ := run_literal hs.sound hs.low hp
  obtain rfl : .null = ty := by simpa using ht
  exact .ok hrun ⟨hadv, hnull rfl, rfl⟩

theorem arithType_ok {h : Hierarchy} {line : SourceLine} {op : String} {left right ty : Ty}
    (ht : h.arithType line op left right = .ok ty) : ty = .int := by
  unfold Hierarchy.arithType at ht
  split at ht
  · simpa using ht.symm
  · cases ht

theorem truthType_ok {h : Hierarchy} {line : SourceLine} {op : String} {left right ty : Ty}
    (ht : h.truthType line op left right = .ok ty) : ty = .bool := by
  unfold Hierarchy.truthType at ht
  split at ht
  · simpa using ht.symm
  · cases ht

/-- Two operands whose code comes first, and what comes after it. -/
theorem Runnable.operands {env : Env} {n n₁ n₂ i : Nat} {e l r : Expr} {ty left right : Ty}
    (h : K.Runnable env n i e ty) (rest : List Piece)
    (hcode : (e.bind env).outline n = (l.bind env).outline n₁ ++ (r.bind env).outline n₂ ++ rest)
    (hn : l.nameErrors env = [] ∧ r.nameErrors env = [])
    (hl : (l.bind env).infer K.hierarchy = .ok left)
    (hr : (r.bind env).infer K.hierarchy = .ok right)
    (hnull : l.mentionsNull = true ∨ r.mentionsNull = true → K.nulls) :
    K.Runnable env n₁ i l left ∧
      K.Runnable env n₂ (i + width ((l.bind env).outline n₁)) r right ∧
      K.img.Placed (i + width ((l.bind env).outline n₁) + width ((r.bind env).outline n₂)) rest ∧
      i + width ((e.bind env).outline n) =
        i + width ((l.bind env).outline n₁) + width ((r.bind env).outline n₂) + width rest := by
  have hp := h.placed
  have hin := h.inside
  simp only [hcode, Image.placed_append, width_append, ← Nat.add_assoc] at hp hin ⊢
  exact ⟨⟨hp.1.1, by omega, hn.1, hl, fun hm => hnull (.inl hm)⟩,
    ⟨hp.1.2, by omega, hn.2, hr, fun hm => hnull (.inr hm)⟩, hp.2, trivial⟩

theorem computes_arith {l r : Expr} (cl : K.Computes fuel call l) (cr : K.Computes fuel call r)
    (line : SourceLine) (op : ArithOp) : K.Computes fuel call (.arith line op l r) := by
  intro env ρ chain n s σ ty h hs
  have hn := h.names
  have ht := h.types
  have hnull : l.mentionsNull = true ∨ r.mentionsNull = true → K.nulls :=
    fun hm => h.nulls (Bool.or_eq_true_iff.2 hm)
  simp only [Expr.nameErrors, List.append_eq_nil_iff] at hn
  simp only [Expr.bind, Expr.infer, bind_ok_iff] at ht
  obtain ⟨left, hl, right, hr, hty⟩ := ht
  obtain rfl := arithType_ok hty
  obtain ⟨h₁, h₂, hp, hw⟩ := h.operands (plain (straight [op.op]))
    (by rw [Expr.bind, Expr.outline]) hn hl hr hnull
  have hpiece := (Image.placed_op.1 hp).1
  rw [eval, hw]
  refine cl.both cr h₁ h₂ hs fun {a b t τ} hab => ?_
  have hst : t.stack = .plain b :: .plain a :: s.stack := hab.stack
  -- all but a division by zero replace two words by one
  have hop : ∀ v, Segmented.execute K.img { t with ip := t.ip + 1 } op.op =
        .next { t with stack := [.plain v] ++ s.stack, ip := t.ip + 1 } →
      K.Simulates fuel t (.ok (v, τ)) fun v τ t =>
        K.Advance s σ [.plain v] (s.ip + width ((l.bind env).outline n) +
          width ((r.bind env).outline (n + (l.bind env).labelCount)) + 1) t τ ∧
        K.Holds τ .int v := by
    intro v hx
    obtain ⟨u, hu, hadv⟩ := run_replace hs.sound hs.low hab hpiece hx (by simp)
    exact .ok hu ⟨hadv, trivial⟩
  cases op with
  | add => exact hop (a + b) (by simp [ArithOp.op, Segmented.execute, hst, Word.add])
  | sub => exact hop (a - b) (by simp [ArithOp.op, Segmented.execute, State.binary, hst])
  | mul => exact hop (a * b) (by simp [ArithOp.op, Segmented.execute, State.binary, hst])
  | div =>
    simp only [arith]
    split
    · rename_i hb
      refine .of_run (.refl t) ?_
      refine Faults.of_op (o := .div) (by rw [hab.ip]; exact hpiece) ?_
      simp [Segmented.execute, hst, hb]
    · rename_i hb
      exact hop (a / b) (by simp [ArithOp.op, Segmented.execute, State.binary, hst, hb])

theorem computes_compare {l r : Expr} (cl : K.Computes fuel call l) (cr : K.Computes fuel call r)
    (line : SourceLine) (op : CompareOp) : K.Computes fuel call (.compare line op l r) := by
  intro env ρ chain n s σ ty h hs
  have hn := h.names
  have ht := h.types
  have hnull : l.mentionsNull = true ∨ r.mentionsNull = true → K.nulls :=
    fun hm => h.nulls (Bool.or_eq_true_iff.2 hm)
  simp only [Expr.nameErrors, List.append_eq_nil_iff] at hn
  simp only [Expr.bind, Expr.infer, bind_ok_iff] at ht
  obtain ⟨left, hl, right, hr, hty⟩ := ht
  obtain rfl := truthType_ok hty
  cases op with
  | eq =>
    obtain ⟨h₁, h₂, hp, hw⟩ := h.operands (plain (branchValue .beq _))
      (by rw [Expr.bind, Expr.outline]) hn hl hr hnull
    rw [eval, hw]
    refine cl.both cr h₁ h₂ hs fun {a b t τ} hab => ?_
    obtain ⟨m, u, hu, hadv⟩ := run_branchValue hs.sound hs.low hab (fun _ _ => rfl) hp
    exact .ok hu ⟨hadv, .truth _⟩
  | le =>
    obtain ⟨h₁, h₂, hp, hw⟩ := h.operands (plain (branchValue .bleq _))
      (by rw [Expr.bind, Expr.outline]) hn hl hr hnull
    rw [eval, hw]
    refine cl.both cr h₁ h₂ hs fun {a b t τ} hab => ?_
    obtain ⟨m, u, hu, hadv⟩ := run_branchValue hs.sound hs.low hab (fun _ _ => rfl) hp
    exact .ok hu ⟨hadv, .truth _⟩
  | ge =>
    -- the right operand comes first, and the difference is compared with zero
    obtain ⟨h₁, h₂, hp, hw⟩ := h.operands (plain (straight [.sub, .push 0] ++ branchValue .bleq _))
      (by rw [Expr.bind, Expr.outline]) hn.symm hr hl (fun hm => hnull hm.symm)
    rw [plain_append, Image.placed_append] at hp
    rw [eval, hw]
    refine cr.both cl h₁ h₂ hs fun {b a t τ} hab => ?_
    have hst : t.stack = .plain a :: .plain b :: s.stack := hab.stack
    have hsub : K.Run 2 t
        { t with stack := .plain 0 :: .plain (b - a) :: s.stack, ip := t.ip + 2 } := by
      refine run_straight (hab.low hs.low) [.sub, .push 0] rfl (by rw [hab.ip]; exact hp.1) ?_
      obtain ⟨st, heap, pending, ip, fp, ra, tm, output, made⟩ := t
      simp only at hst
      subst hst
      rfl
    have hadv : K.Advance s σ [.plain 0, .plain (b - a)] _
        { t with stack := .plain 0 :: .plain (b - a) :: s.stack, ip := t.ip + 2 } τ :=
      hab.replace hs.sound rfl (congrArg (· + 2) hab.ip) rfl rfl rfl rfl rfl
        (Nat.le_add_right_of_le hab.forward)
    obtain ⟨m, u, hu, hadv'⟩ := run_branchValue hs.sound hs.low hadv (fun _ _ => rfl) hp.2
    exact .ok (hsub.trans hu) ⟨hadv', .truth _⟩

/-- A single operand whose code comes first, and what comes after it. -/
theorem Runnable.operand {env : Env} {n n' i : Nat} {e e' : Expr} {ty ty' : Ty}
    (h : K.Runnable env n i e ty) (rest : List Piece)
    (hcode : (e.bind env).outline n = (e'.bind env).outline n' ++ rest)
    (hn : e'.nameErrors env = []) (ht : (e'.bind env).infer K.hierarchy = .ok ty')
    (hnull : e'.mentionsNull = true → K.nulls) :
    K.Runnable env n' i e' ty' ∧ K.img.Placed (i + width ((e'.bind env).outline n')) rest ∧
      i + width ((e.bind env).outline n) =
        i + width ((e'.bind env).outline n') + width rest := by
  have hp := h.placed
  have hin := h.inside
  simp only [hcode, Image.placed_append, width_append, ← Nat.add_assoc] at hp hin ⊢
  exact ⟨⟨hp.1, by omega, hn, ht, hnull⟩, hp.2, trivial⟩

theorem computes_not {e : Expr} (ce : K.Computes fuel call e) (line : SourceLine) :
    K.Computes fuel call (.not line e) := by
  intro env ρ chain n s σ ty h hs
  have hn := h.names
  have ht := h.types
  have hnull : e.mentionsNull = true → K.nulls := h.nulls
  simp only [Expr.nameErrors] at hn
  simp only [Expr.bind, Expr.infer, bind_ok_iff] at ht
  obtain ⟨operand, he, hty⟩ := ht
  obtain rfl : ty = .bool := by
    unfold Hierarchy.notType at hty
    split at hty
    · simpa using hty.symm
    · cases hty
  obtain ⟨h₁, hp, hw⟩ := h.operand (plain (straight [.push 0] ++ branchValue .beq _))
    (by rw [Expr.bind, Expr.outline]) hn he hnull
  rw [plain_append, Image.placed_append] at hp
  rw [eval, hw]
  refine .bind ((ce h₁ hs).mono ?_)
  rintro a τ t ⟨ha, -⟩
  have hpush : K.Run 1 t { t with stack := .plain 0 :: t.stack, ip := t.ip + 1 } :=
    run_straight (ha.low hs.low) [.push 0] rfl (by rw [ha.ip]; exact hp.1) rfl
  have hadv : K.Advance s σ [.plain 0, .plain a] _
      { t with stack := .plain 0 :: t.stack, ip := t.ip + 1 } τ :=
    ha.replace hs.sound (congrArg (Word.plain 0 :: ·) ha.stack) (congrArg (· + 1) ha.ip)
      rfl rfl rfl rfl rfl (by
        have hf := ha.forward
        simp only [List.length_cons, List.length_nil] at hf ⊢
        omega)
  obtain ⟨m, u, hu, hadv'⟩ := run_branchValue hs.sound hs.low hadv (fun _ _ => rfl) hp.2
  exact .ok (hpush.trans hu) ⟨hadv', .truth _⟩

theorem computes_print {e : Expr} (ce : K.Computes fuel call e) (line : SourceLine) :
    K.Computes fuel call (.print line e) := by
  intro env ρ chain n s σ ty h hs
  have hn := h.names
  have ht := h.types
  have hnull : e.mentionsNull = true → K.nulls := h.nulls
  simp only [Expr.nameErrors] at hn
  simp only [Expr.bind, Expr.infer] at ht
  obtain ⟨h₁, hp, hw⟩ := h.operand (plain (straight [.print])) (by rw [Expr.bind, Expr.outline])
    hn ht hnull
  rw [eval, hw]
  refine .bind ((ce h₁ hs).mono ?_)
  rintro v τ t ⟨ha, hv⟩
  have hst : t.stack = .plain v :: s.stack := ha.stack
  have hrun : K.Run 1 t { t with output := t.output ++ [v], ip := t.ip + 1 } := by
    refine run_op (ha.low hs.low) (o := .print) (by rw [ha.ip]; exact hp.1) ?_
    simp only [Segmented.execute, hst]
  refine .ok hrun ⟨⟨⟨hst, congrArg (· + 1) ha.ip, ha.fp, ha.heap, ha.store, ?_⟩,
    Nat.le_add_right_of_le ha.forward⟩, hv⟩
  have hsound := ha.sound
  exact
    { heap := hsound.heap
      pending := hsound.pending
      output := congrArg (· ++ [v]) hsound.output
      made := hsound.made
      distinct := hsound.distinct
      objects := fun ho => by
        obtain ⟨n, l, hn, hl⟩ := hsound.objects ho
        exact ⟨n, l, hn, hl.layout, hl.inhabited, hl.names, hl.table, hl.field⟩
      tables := hsound.tables
      directory := hsound.directory
      bare := hsound.bare }

/-- The truth of a word, once a test has told whether the word is `0`. -/
theorem run_answer {s t : State} {σ τ : Store} (hlow : K.Low s) {b : Int64} {i : Nat}
    {no stop : Label} (hend : LogicOp.Ending K.img i no stop)
    (h : K.Advance s σ [] (if b = 0 then i + 4 else i + 2) t τ) :
    ∃ m u, K.Run m t u ∧ K.Advance s σ [.plain (truth (b != 0))] (i + 5) u τ := by
  by_cases hb : b = 0
  · subst hb
    obtain ⟨u, hu, hadv⟩ := run_push hlow h hend.zero
    exact ⟨1, u, hu, hadv⟩
  · have htruth : truth (b != 0) = 1 := by simp [truth, hb]
    rw [if_neg hb] at h
    obtain ⟨u, hu, hadv⟩ := run_push hlow h hend.one
    obtain ⟨w, hw, hadv'⟩ := run_goto hlow hadv hend.leave (by rw [hend.stop_eq]; omega)
    rw [hend.stop_eq] at hadv'
    exact ⟨2, w, hu.trans hw, htruth ▸ hadv'⟩

/-- What comes after the second operand of a connective. -/
theorem run_ending {s t : State} {σ τ : Store} (hs : K.Sound s σ) (hlow : K.Low s) {b : Int64}
    {i : Nat} {no stop : Label} (hend : LogicOp.Ending K.img i no stop)
    (h : K.Advance s σ [.plain b] i t τ) :
    ∃ m u, K.Run m t u ∧ K.Advance s σ [.plain (truth (b != 0))] (i + 5) u τ := by
  obtain ⟨u, hu, hadv⟩ := run_test hs hlow h hend.test (by rw [hend.no_eq]; omega)
  rw [hend.no_eq] at hadv
  obtain ⟨m, w, hw, hadv'⟩ := run_answer hlow hend hadv
  exact ⟨2 + m, w, hu.trans hw, hadv'⟩

/-- What comes after the first operand of a connective: go on with the second one, or to where the
test of the second one goes. -/
theorem run_branching {s t : State} {σ τ : Store} (hs : K.Sound s σ) (hlow : K.Low s) {a : Int64}
    {op : LogicOp} {i right finish : Nat} (hop : op.Branching K.img i right finish)
    (hle : right ≤ finish) (h : K.Advance s σ [.plain a] i t τ) :
    ∃ m u, K.Run m t u ∧ K.Advance s σ []
      (if op.Decides a then if a = 0 then finish + 4 else finish + 2 else right) u τ := by
  obtain ⟨l, htest, hop⟩ := hop
  cases op with
  | and =>
    obtain ⟨rfl, hno⟩ := hop
    obtain ⟨u, hu, hadv⟩ := run_test hs hlow h htest (by omega)
    refine ⟨2, u, hu, ?_⟩
    by_cases ha : a = 0
    · rw [if_pos ha, hno] at hadv
      rwa [if_pos (show LogicOp.and.Decides a from ha), if_pos ha]
    · rw [if_neg ha] at hadv
      rwa [if_neg (show ¬ LogicOp.and.Decides a from ha)]
  | or =>
    obtain ⟨rfl, hon, yes, hskip, hyes⟩ := hop
    obtain ⟨u, hu, hadv⟩ := run_test hs hlow h htest (by omega)
    by_cases ha : a = 0
    · rw [if_pos ha, hon] at hadv
      exact ⟨2, u, hu, by rwa [if_neg (show ¬ LogicOp.or.Decides a from not_not_intro ha)]⟩
    · rw [if_neg ha] at hadv
      obtain ⟨w, hw, hadv'⟩ := run_goto hlow hadv hskip (by omega)
      rw [hyes] at hadv'
      exact ⟨3, w, hu.trans hw, by rwa [if_pos (show LogicOp.or.Decides a from ha), if_neg ha]⟩

theorem computes_logic {l r : Expr} (cl : K.Computes fuel call l) (cr : K.Computes fuel call r)
    (line : SourceLine) (op : LogicOp) : K.Computes fuel call (.logic line op l r) := by
  intro env ρ chain n s σ ty h hs
  obtain ⟨hp, hin, hn, ht, hnull⟩ := h
  simp only [Expr.nameErrors, List.append_eq_nil_iff] at hn
  simp only [Expr.bind, Expr.infer, bind_ok_iff] at ht
  replace hnull : l.mentionsNull = true ∨ r.mentionsNull = true → K.nulls :=
    fun hm => hnull (Bool.or_eq_true_iff.2 hm)
  obtain ⟨left, hl, right, hr, hty⟩ := ht
  obtain rfl := truthType_ok hty
  simp only [Expr.bind, Expr.outline_logic, Image.placed_append, width_append,
    LogicOp.width_finish, ← Nat.add_assoc] at hp hin ⊢
  obtain ⟨⟨⟨hpl, htest⟩, hpr⟩, hfinish⟩ := hp
  obtain ⟨no, stop, hend⟩ := LogicOp.ending_of_placed hfinish
  have hbranching := LogicOp.branching_of_placed htest hfinish
  rw [eval_logic]
  refine .bind ((cl ⟨hpl, by omega, hn.1, hl, fun hm => hnull (.inl hm)⟩ hs).mono ?_)
  rintro a τ t ⟨ha, -⟩
  obtain ⟨m, t₁, ht₁, hadv⟩ :=
    run_branching hs.sound hs.low hbranching (Nat.le_add_right _ _) ha
  refine .run ht₁ ?_
  split
  · rename_i hdecides
    rw [if_pos hdecides] at hadv
    obtain ⟨m', u, hu, hadv'⟩ := run_answer hs.low hend hadv
    exact .ok hu ⟨hadv', .truth _⟩
  · rename_i hdecides
    rw [if_neg hdecides] at hadv
    refine .bind ((cr ⟨hadv.ip ▸ hpr, by rw [hadv.ip]; omega, hn.2, hr,
      fun hm => hnull (.inr hm)⟩ (hs.advance hadv)).mono ?_)
    rintro b υ u ⟨hb, -⟩
    rw [hadv.ip] at hb
    obtain ⟨m', w, hw, hadv'⟩ := run_ending hs.sound hs.low hend (hadv.trans hb)
    exact .ok hw ⟨hadv', .truth _⟩

theorem sub_of_branchType {line : SourceLine} {yes no ty : Ty}
    (h : K.hierarchy.branchType line yes no = .ok ty) : K.Sub yes ty ∧ K.Sub no ty := by
  unfold Hierarchy.branchType Hierarchy.join? at h
  split at h
  · rename_i ty' hj
    obtain rfl : ty' = ty := by simpa using h
    split at hj
    · rename_i hsub
      obtain rfl : no = ty' := by simpa using hj
      exact ⟨sub_of_isSubtype hsub, .refl _⟩
    · split at hj
      · rename_i hsub
        obtain rfl : yes = ty' := by simpa using hj
        exact ⟨.refl _, sub_of_isSubtype hsub⟩
      · cases hj
  · cases h

theorem computes_cond {c t f : Expr} (cc : K.Computes fuel call c) (ct : K.Computes fuel call t)
    (cf : K.Computes fuel call f) (line : SourceLine) :
    K.Computes fuel call (.cond line c t f) := by
  intro env ρ chain n s σ ty h hs
  obtain ⟨hp, hin, hn, ht, hnull⟩ := h
  simp only [Expr.nameErrors, List.append_eq_nil_iff] at hn
  simp only [Expr.bind, Expr.infer, bind_ok_iff] at ht
  replace hnull : (c.mentionsNull || t.mentionsNull) = true ∨ f.mentionsNull = true → K.nulls :=
    fun hm => hnull (Bool.or_eq_true_iff.2 hm)
  simp only [Bool.or_eq_true] at hnull
  obtain ⟨test, hc, _, -, yes, hyes, no, hno, hty⟩ := ht
  obtain ⟨hsub, hsub'⟩ := sub_of_branchType hty
  simp only [Expr.bind, Expr.outline, plain_append, Image.placed_append, width_append,
    width_plain_straight, List.length_cons, List.length_nil, plain_cons, plain_nil,
    Image.placed_label, width_cons_label, width_nil, Image.placed_nil, and_true, Nat.zero_add,
    Nat.reduceAdd, Nat.add_zero, ← Nat.add_assoc] at hp hin ⊢
  obtain ⟨⟨⟨⟨⟨hpc, htest⟩, hpf⟩, hgoto, hthen⟩, hpt⟩, hend⟩ := hp
  rw [eval]
  refine .bind ((cc ⟨hpc, by omega, hn.1.1, hc, fun hm => hnull (.inl (.inl hm))⟩ hs).mono ?_)
  rintro a τ u ⟨ha, -⟩
  obtain ⟨u₁, hu₁, hadv⟩ := run_test hs.sound hs.low ha htest (by omega)
  refine .run hu₁ ?_
  split
  · rename_i h1
    rw [if_pos h1, hthen] at hadv
    refine (ct ⟨hadv.ip ▸ hpt, by rw [hadv.ip]; omega, hn.1.2, hyes,
      fun hm => hnull (.inl (.inr hm))⟩ (hs.advance hadv)).mono ?_
    rintro v υ w ⟨hv, hval⟩
    rw [hadv.ip] at hv
    exact ⟨hadv.trans hv, hsub υ v hval⟩
  · rename_i h1
    rw [if_neg h1] at hadv
    refine (cf ⟨hadv.ip ▸ hpf, by rw [hadv.ip]; omega, hn.2, hno,
      fun hm => hnull (.inr hm)⟩ (hs.advance hadv)).extend ?_
    rintro v υ w ⟨hv, hval⟩
    rw [hadv.ip] at hv
    obtain ⟨w', hw', hadv'⟩ := run_goto hs.low (hadv.trans hv) hgoto.1 (by omega)
    rw [hend] at hadv'
    exact ⟨1, w', hw', hadv', hsub' υ v hval⟩

end World

end ObjectLang
