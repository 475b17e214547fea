import ObjectLang.Proofs.Execution

/-!
# Compiled programs do not go wrong

Annotations with the type of a method or of a class shape apart, the checker is sound: a program
that compiles never pops from an empty stack, never runs off its code and is never without a label.
If a run does not halt, it runs out of memory or steps, divides by zero, or takes `null` for an
object or a function (`Program.fault_of_compile`).

The size of memory does not matter beyond that: two machines on which a program does not run out of
memory give the same result, and for as long as they both run they output the same words
(`Program.run_eq_of_compile`).
-/

namespace ObjectLang

/-- A computation that succeeds with a value of which something can be decided. -/
theorem exists_ok_of_decide {ε α : Type} {x : Except ε α} {q : α → Prop} [DecidablePred q]
    (h : x.toOption.any (fun a => decide (q a)) = true) : ∃ a, x = .ok a ∧ q a := by
  cases x with
  | error => cases h
  | ok a => exact ⟨a, rfl, of_decide_eq_true h⟩

namespace Program

/-- Two classes, the second of which overrides a method that the first one calls, and a variable
with the given initial value on which it is called. -/
def accounts (init : Expr) : Program :=
  .letIn
    [{ name := "Account"
       fields := [{ name := "balance", ty := .int }]
       methods :=
        [{ name := "worth", params := [], ret := .int, decls := [],
           body := .ident 0 "balance" none },
         { name := "twice", params := [], ret := .int, decls := [],
           body := .arith 0 .add (.call 0 "worth" [] none) (.call 0 "worth" [] none) }] },
     { name := "Savings"
       superclass := some "Account"
       fields := []
       methods :=
        [{ name := "worth", params := [], ret := .int, decls := [],
           body := .arith 0 .mul (.ident 0 "balance" none) (.int 0 10) }] }]
    [.var { name := "a", ty := .ref "Account", init := init }]
    (.print 0 (.send 0 "a" "twice" [] none))

/-- An account that is in fact a savings account. -/
def savings : Program := accounts (.new 0 "Savings" [.int 0 20] none)

/-- **Type soundness.**  If the annotations of a program mention neither methods nor class shapes,
and the code is shorter than words can count, then the only faults that its run may end with are
running out of memory or steps and division by zero, and, if the program has a `null` in it, the
use of the word for `null` as an address. -/
theorem fault_of_compile {p : Program} {memorySize maxSteps : Nat} {c : Compiled}
    (hc : p.compile ⟨memorySize, ⟨memorySize, maxSteps⟩⟩ = .ok c)
    (hmemory : memorySize < 2 ^ 63) (hlen : c.code.length < 2 ^ 63)
    (hplain : ∀ ty ∈ p.annotations, ty.isPlain = true) :
    ∀ f, c.run = .error f → f.Permitted (p.mentionsNull = true) maxSteps := by
  intro f hf
  obtain ⟨ops, hops, hrun⟩ := run_of_compile hc
  have hl := links_of_compile hc hops
  obtain ⟨r, hpermitted, hr⟩ := (accepted_of_plain hc hlen hplain).exists_result maxSteps
  rw [hrun] at hf
  obtain heq | ⟨sp, hp, hfull⟩ := hr hmemory hl
  · exact hpermitted f (heq.symm.trans hf)
  · cases hfull.symm.trans hf
    trivial

theorem fault_of_compile_null : ∃ c,
    (accounts (.null 0)).compile ⟨60, ⟨60, 1000⟩⟩ = .ok c ∧ c.code.length < 2 ^ 63 ∧
      (∀ ty ∈ (accounts (.null 0)).annotations, ty.isPlain = true) ∧
      c.run = .error (.badAddress (-1)) ∧
      (Fault.badAddress (-1)).Permitted ((accounts (.null 0)).mentionsNull = true) 1000 := by
  obtain ⟨c, hc, hlen, hrun⟩ : ∃ c, (accounts (.null 0)).compile ⟨60, ⟨60, 1000⟩⟩ = .ok c ∧
      c.code.length < 2 ^ 63 ∧ c.run = .error (.badAddress (-1)) :=
    exists_ok_of_decide (by decide +kernel)
  have hplain : ∀ ty ∈ (accounts (.null 0)).annotations, ty.isPlain = true := by decide
  exact ⟨c, hc, hlen, hplain, hrun, fault_of_compile hc (by decide) hlen hplain _ hrun⟩

/-- **The size of memory does not matter.**  A program that compiles for one size does so for every
other.  Where neither of two machines runs out of memory, the results are the same, and no word that
is output or left on the stack is a stack address, which would depend on the size.  After as many
steps two machines are at the same place in the code and have output the same words, whether or not
they run out of memory later. -/
theorem run_eq_of_compile {p : Program} {memorySize memorySize' maxSteps : Nat} {c : Compiled}
    (hc : p.compile ⟨memorySize, ⟨memorySize, maxSteps⟩⟩ = .ok c)
    (hmemory : memorySize < 2 ^ 63) (hmemory' : memorySize' < 2 ^ 63)
    (hlen : c.code.length < 2 ^ 63) (hplain : ∀ ty ∈ p.annotations, ty.isPlain = true) :
    ∃ c', p.compile ⟨memorySize', ⟨memorySize', maxSteps⟩⟩ = .ok c' ∧
      ((∀ sp hp, c.run ≠ .error (.heapMeetsStack sp hp)) →
        (∀ sp hp, c'.run ≠ .error (.heapMeetsStack sp hp)) → c.run = c'.run) ∧
      ∀ {ops ops' : List (Op Nat)}, c.code.assemble = .ok ops → c'.code.assemble = .ok ops' →
        ∀ {n : Nat} {s s' : Machine.State}, Machine.Takes ops.toArray n (.initial memorySize) s →
          Machine.Takes ops'.toArray n (.initial memorySize') s' →
          s.ip = s'.ip ∧ s.output = s'.output := by
  have haccepted := accepted_of_plain hc hlen hplain
  have hc' := compile_outline hc ⟨memorySize', ⟨memorySize', maxSteps⟩⟩
  refine ⟨_, hc', fun hfull hfull' => ?_, fun {ops ops'} hops hops' {n s s'} hs hs' => ?_⟩
  · obtain ⟨ops, hops, hrun⟩ := run_of_compile hc
    obtain ⟨ops', hops', hrun'⟩ := run_of_compile hc'
    obtain ⟨r, -, hr⟩ := haccepted.exists_result maxSteps
    rw [hrun] at hfull ⊢
    rw [hrun'] at hfull' ⊢
    obtain heq | ⟨sp, hp, h⟩ := hr hmemory (links_of_compile hc hops)
    · obtain heq' | ⟨sp, hp, h⟩ := hr hmemory' (links_of_compile hc' hops')
      · exact heq.trans heq'.symm
      · exact absurd h (hfull' sp hp)
    · exact absurd h (hfull sp hp)
  · obtain ⟨t, ht, hcorr, -⟩ := haccepted.visits hmemory (links_of_compile hc hops) hs
    obtain ⟨t', ht', hcorr', -⟩ := haccepted.visits hmemory' (links_of_compile hc' hops') hs'
    obtain rfl := ht.unique ht'
    exact ⟨hcorr.ip.trans hcorr'.ip.symm,
      Array.toList_inj.1 (hcorr.output.trans hcorr'.output.symm)⟩

theorem run_eq_of_compile_savings : ∃ c c',
    savings.compile ⟨60, ⟨60, 1000⟩⟩ = .ok c ∧ savings.compile ⟨100, ⟨100, 1000⟩⟩ = .ok c' ∧
      c.run = c'.run ∧ c.run = .ok ⟨[400], [0, 0, 2, 5, 400]⟩ := by
  obtain ⟨c, hc, hlen, hrun⟩ : ∃ c, savings.compile ⟨60, ⟨60, 1000⟩⟩ = .ok c ∧
      c.code.length < 2 ^ 63 ∧ c.run = .ok ⟨[400], [0, 0, 2, 5, 400]⟩ :=
    exists_ok_of_decide (by decide +kernel)
  obtain ⟨d, hd, hrun'⟩ : ∃ d, savings.compile ⟨100, ⟨100, 1000⟩⟩ = .ok d ∧
      d.run = .ok ⟨[400], [0, 0, 2, 5, 400]⟩ :=
    exists_ok_of_decide (by decide +kernel)
  have hplain : ∀ ty ∈ savings.annotations, ty.isPlain = true := by decide
  obtain ⟨c', hc', hsame, -⟩ :=
    run_eq_of_compile hc (by decide) (show 100 < 2 ^ 63 by decide) hlen hplain
  cases hd.symm.trans hc'
  refine ⟨c, d, hc, hd, hsame ?_ ?_, hrun⟩
  · rw [hrun]
    exact fun _ _ h => nomatch h
  · rw [hrun']
    exact fun _ _ h => nomatch h

end Program

end ObjectLang
