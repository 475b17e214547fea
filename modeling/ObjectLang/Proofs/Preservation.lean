import ObjectLang.Proofs.Safety

/-!
# Compiled programs mean what they say

For a program without classes the code computes what the evaluation of the program by name does:
with enough memory and steps its run halts with the output and the value that evaluation gives
(`Program.run_of_evaluate`).  Enough memory is as many words as the code has instructions, for each
of the calls that are nested in one another.
-/

namespace ObjectLang

namespace Program

/-- **Semantic preservation.**  If a program without classes compiles, and its evaluation with calls
nested at most `fuel` deep gives a value, then its run on every machine that has more than
`fuel + 1` times as many words of memory as there are instructions, and steps enough, halts with
that value on top of the stack and the same output.  All that is left below are the word at the
bottom and the outermost declarations. -/
theorem run_of_evaluate {p : Program} {options : Options} {c : Compiled}
    (hc : p.compile options = .ok c) (hclasses : p.classes = []) (hlen : c.code.length < 2 ^ 63)
    {fuel : Nat} {v : Int64} {σ : Reference.Store} (he : p.evaluate fuel = .ok (v, σ)) :
    ∃ steps, ∀ {memorySize maxSteps : Nat}, (fuel + 1) * c.code.length < memorySize →
      memorySize < 2 ^ 63 → steps < maxSteps →
      ∃ c' e, p.compile ⟨memorySize, ⟨memorySize, maxSteps⟩⟩ = .ok c' ∧ c'.run = .ok e ∧
        e.output = σ.output ∧ e.top? = some v ∧
        e.stack.length = match p with
          | .body _ => 1
          | .letIn _ decls _ => 2 + decls.length := by
  have haccepted : p.Accepted True False :=
    accepted_of_compile hc hlen False.elim (by simp [hclasses]) fun _ => trivial
  obtain ⟨n, hn⟩ := haccepted.halts hclasses he
  refine ⟨n, fun {memorySize maxSteps} hsize hmemory hsteps => ?_⟩
  have hc' := compile_outline hc ⟨memorySize, ⟨memorySize, maxSteps⟩⟩
  obtain ⟨ops, hops, hrun⟩ := run_of_compile hc'
  have hwidth : (Image.ofPieces p.bind.outline).size ≤ c.code.length := by
    rw [code_eq_outline hc, List.length_map]
    exact List.countP_le_length
  have hfits : (fuel + 1) * (Image.ofPieces p.bind.outline).size < memorySize :=
    Nat.lt_of_le_of_lt (Nat.mul_le_mul_left _ hwidth) hsize
  obtain ⟨s, vs, htakes, hvs, hstops⟩ := hn hmemory hfits (links_of_compile hc' hops)
  refine ⟨_, _, hc', hrun.trans (htakes.runFrom_stops hstops maxSteps hsteps), rfl, ?_, ?_⟩
  · simp [Machine.Execution.top?]
  · rw [List.length_append, hvs]
    cases p with
    | body main => rfl
    | letIn classes decls main =>
      obtain rfl : classes = [] := hclasses
      simp only [Program.frameSize, List.length_nil, List.length_singleton]
      omega

/-- The factorial of five, by a function that has a function of its own. -/
def factorial : Program :=
  .letIn []
    [.var { name := "x", ty := .int, init := .int 0 5 },
     .fn { name := "fact", params := [{ name := "n", ty := .int }], ret := .int
           decls := [.fn { name := "less", params := [{ name := "k", ty := .int }], ret := .int
                           decls := []
                           body := .arith 0 .sub (.ident 0 "n" none) (.ident 0 "k" none) }]
           body := .cond 0 (.compare 0 .le (.ident 0 "n" none) (.int 0 1)) (.int 0 1)
            (.arith 0 .mul (.ident 0 "n" none)
              (.call 0 "fact" [.call 0 "less" [.int 0 1] none] none)) }]
    (.print 0 (.call 0 "fact" [.ident 0 "x" none] none))

theorem run_of_evaluate_factorial : ∃ c σ, factorial.compile .standard = .ok c ∧
    factorial.classes = [] ∧ c.code.length < 2 ^ 63 ∧ factorial.evaluate 6 = .ok (120, σ) ∧
      ∃ steps, ∀ {memorySize maxSteps : Nat}, 7 * c.code.length < memorySize →
        memorySize < 2 ^ 63 → steps < maxSteps →
        ∃ c' e, factorial.compile ⟨memorySize, ⟨memorySize, maxSteps⟩⟩ = .ok c' ∧ c'.run = .ok e ∧
          e.output = σ.output ∧ e.top? = some 120 ∧ e.stack.length = 4 := by
  obtain ⟨c, hc, hlen⟩ : ∃ c, factorial.compile .standard = .ok c ∧ c.code.length < 2 ^ 63 :=
    exists_ok_of_decide (by decide +kernel)
  obtain ⟨⟨v, σ⟩, he, hv⟩ : ∃ a, factorial.evaluate 6 = .ok a ∧ a.1 = 120 :=
    exists_ok_of_decide (by decide +kernel)
  obtain rfl : v = 120 := hv
  exact ⟨c, σ, hc, rfl, hlen, he, run_of_evaluate hc rfl hlen he⟩

end Program

end ObjectLang
