import ObjectLang.Proofs.Heap

/-!
# Booleans are canonical, `null` apart

The code of a conditional compares its test with `1`, while negation and the connectives compare
with `0`, so that all of it rests on the words of type `bool` being `0` and `1`.  They are if there
is no `null` in the program, through variables, parameters, results, fields and all that subtyping
admits (`Program.top_of_compile_bool`).

But `null` is a value of every type, `bool` among them, and its word is neither.  With it there is a
third word of type `bool`; and where a variable is annotated with the type of a method, calling
`null` need not even fault, but may go on with any other block and with its result
(`Program.null_among_booleans`).
-/

namespace ObjectLang

namespace Program

variable {p : Program} {memorySize maxSteps : Nat} {c : Compiled} {e : Machine.Execution}

/-- **What a run leaves on top of the stack is a value of the type of the program.** -/
theorem holds_of_run {nulls plainTypes : Prop} (h : p.Accepted nulls plainTypes)
    (hplain : nulls → plainTypes) (hc : p.compile ⟨memorySize, ⟨memorySize, maxSteps⟩⟩ = .ok c)
    (hmemory : memorySize < 2 ^ 64) {ty : Ty} (hty : c.ty = some ty) (hrun : c.run = .ok e) :
    ∃ v σ, e.top? = some v ∧ (p.world nulls plainTypes 0).Holds σ ty v := by
  obtain ⟨ops, hops, hruns⟩ := run_of_compile hc
  rw [hruns] at hrun
  rcases Nat.lt_or_ge memorySize (2 ^ 63) with hsmall | hlarge
  · obtain ⟨r, hpermits, hr⟩ := h.exists_outcome hplain maxSteps
    obtain heq | ⟨sp, hp, hfull⟩ := hr hsmall (links_of_compile hc hops)
    · obtain rfl : r = .ok e := heq.symm.trans hrun
      obtain ⟨v, σ, htop, hholds⟩ := hpermits
      have hcheck := (compile_ok hc).2.1
      rw [hty] at hcheck
      exact ⟨v, σ, htop, hholds ty (infer_of_check hcheck)⟩
    · cases hfull.symm.trans hrun
  · -- no run gets anywhere with a memory that large
    obtain ⟨f, hstops⟩ := Machine.stops_initial ops.toArray hlarge hmemory
    cases maxSteps with
    | zero => cases hrun
    | succ n =>
      have hfault := (Machine.Takes.refl _).runFrom_stops hstops (n + 1) n.succ_pos
      cases hfault.symm.trans hrun

/-- **Booleans are canonical, `null` apart.**  Let a program be of type `bool`, its code be shorter
than words can count, and its run halt.  If there is no `null` in the program, the top of the final
stack is `0` or `1`.  If the annotations mention neither methods nor class shapes, it is `0`, `1`
or the word of `null`. -/
theorem top_of_compile_bool (hc : p.compile ⟨memorySize, ⟨memorySize, maxSteps⟩⟩ = .ok c)
    (hmemory : memorySize < 2 ^ 64) (hlen : c.code.length < 2 ^ 63) (hty : c.ty = some .bool)
    (hrun : c.run = .ok e) :
    (p.mentionsNull = false → e.top? = some 0 ∨ e.top? = some 1) ∧
      ((∀ ty ∈ p.annotations, ty.isPlain = true) →
        e.top? = some 0 ∨ e.top? = some 1 ∨ e.top? = some (-1)) := by
  constructor
  · intro hnull
    -- without `null`, annotations do not matter
    have haccepted : p.Accepted False False :=
      accepted_of_compile hc hlen False.elim False.elim (by simp [hnull])
    obtain ⟨v, σ, htop, hzero | hone | ⟨hnulls, -⟩⟩ :=
      holds_of_run haccepted id hc hmemory hty hrun
    · exact .inl (hzero ▸ htop)
    · exact .inr (hone ▸ htop)
    · exact hnulls.elim
  · intro hplain
    obtain ⟨v, σ, htop, hzero | hone | ⟨-, hnull⟩⟩ :=
      holds_of_run (accepted_of_plain hc hlen hplain) (fun _ => trivial) hc hmemory hty hrun
    · exact .inl (hzero ▸ htop)
    · exact .inr (.inl (hone ▸ htop))
    · exact .inr (.inr (hnull ▸ htop))

/-- A truth value in a field, and a class with a field for a method, of which there is no object. -/
def switches : Program :=
  .letIn
    [{ name := "Switch"
       fields := [{ name := "on", ty := .bool }]
       methods := [{ name := "off", params := [], ret := .bool, decls := []
                     body := .not 0 (.ident 0 "on" none) }] },
     { name := "Remote"
       fields := [{ name := "act", ty := .method ⟨[], .bool⟩ }]
       methods := [{ name := "press", params := [], ret := .bool, decls := []
                     body := .call 0 "act" [] none }] }]
    [.var { name := "s", ty := .ref "Switch"
            init := .new 0 "Switch" [.compare 0 .le (.int 0 5) (.int 0 3)] none }]
    (.cond 0 (.send 0 "s" "off" [] none) (.send 0 "s" "off" [] none) (.bool 0 false))

theorem top_of_compile_bool_switches : ∃ c e, switches.compile ⟨60, ⟨60, 1000⟩⟩ = .ok c ∧
    c.code.length < 2 ^ 63 ∧ c.ty = some .bool ∧ c.run = .ok e ∧
      switches.mentionsNull = false ∧ (e.top? = some 0 ∨ e.top? = some 1) := by
  obtain ⟨c, hc, hlen, hty, hrun⟩ : ∃ c, switches.compile ⟨60, ⟨60, 1000⟩⟩ = .ok c ∧
      c.code.length < 2 ^ 63 ∧ c.ty = some .bool ∧
        c.run.toOption.any (fun e => decide (e.stack.length = 5)) = true :=
    exists_ok_of_decide (by decide +kernel)
  obtain ⟨e, hrun, -⟩ := exists_ok_of_decide hrun
  exact ⟨c, e, hc, hlen, hty, hrun, rfl,
    (top_of_compile_bool hc (by decide) hlen hty hrun).1 rfl⟩

/-- A variable of type `bool` that is `null`. -/
def unknown : Program :=
  .letIn [] [.var { name := "b", ty := .bool, init := .null 0 }] (.ident 0 "b" none)

/-- The variable `m` is `null` and of the type of a method.  Its call takes the frame for an object
and finds the block of `g` where the method would be. -/
def astray : Program :=
  .letIn []
    [.fn { name := "g", params := [], ret := .int, decls := [], body := .int 0 42 },
     .fn { name := "f", params := [], ret := .bool
           decls := [.var { name := "m", ty := .method ⟨[], .bool⟩, init := .null 0 }]
           body := .call 0 "m" [] none }]
    (.call 0 "f" [] none)

/-- Words of type `bool` other than `0` and `1`: that of `null`, and any other where annotations are
not plain. -/
theorem null_among_booleans :
    (∃ c, unknown.compile ⟨60, ⟨60, 1000⟩⟩ = .ok c ∧ c.ty = some .bool ∧
      c.run = .ok ⟨[], [0, -1, -1]⟩) ∧
    ∃ c, astray.compile ⟨60, ⟨60, 1000⟩⟩ = .ok c ∧ c.ty = some .bool ∧
      c.run = .ok ⟨[], [0, 13, 23, 42]⟩ :=
  ⟨exists_ok_of_decide (by decide +kernel), exists_ok_of_decide (by decide +kernel)⟩

end Program

end ObjectLang
