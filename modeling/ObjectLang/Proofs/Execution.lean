import ObjectLang.Pipeline
import ObjectLang.Proofs.Simulation.Program

/-!
# Runs of compiled programs

What compilation promises (`Program.compile_ok`) is what the simulation asks for, and so every run
of compiled code is known state by state and from its start to its end:

* every state of a run is described by one of the segmented machine, and method calls are made as
  they should be (`Program.Accepted.visits`);
* up to running out of memory there is one outcome for all sizes of memory, and it is a value of the
  type of the program or one of few faults (`Program.Accepted.exists_outcome`).
-/

namespace ObjectLang

open Segmented (Corresponds Links Steps)

/-! ### The end of a run -/

namespace Machine

/-- The next step ends the run with a result. -/
inductive Stops (code : Array (Op Nat)) (s : State) : Except Fault Execution → Prop where
  | fault {f : Fault} (h : step code s = .error f) : Stops code s (.error f)
  | halted (h : step code s = .ok (.halted s)) : Stops code s (.ok ⟨s.output.toList, s.stack⟩)

variable {code : Array (Op Nat)} {m n : Nat} {s t u : State} {r : Except Fault Execution}

theorem Stops.not_running (h : Stops code s r) : step code s ≠ .ok (.running t) := by
  intro hs
  cases h with
  | fault h => rw [h] at hs; cases hs
  | halted h => rw [h] at hs; cases hs

namespace Takes

theorem eq_of_stops (h : Takes code n s t) (hr : Stops code s r) : n = 0 ∧ s = t := by
  cases h with
  | refl => exact ⟨rfl, rfl⟩
  | head hs _ => exact absurd hs hr.not_running

/-- Runs of one length end in one state. -/
theorem unique (h₁ : Takes code n s t) (h₂ : Takes code n s u) : t = u := by
  cases h₁.split (n := 0) h₂
  rfl

/-- No run goes on after its end. -/
theorem le_of_stops (h₁ : Takes code m s t) (hr : Stops code t r) (h₂ : Takes code n s u) :
    n ≤ m := by
  rcases Nat.le_total n m with hle | hle
  · exact hle
  · obtain ⟨k, rfl⟩ := Nat.exists_eq_add_of_le hle
    have := ((h₁.split h₂).eq_of_stops hr).1
    omega

theorem runFrom_stops (h : Takes code n s t) (hr : Stops code t r) (limit : Nat) {budget : Nat}
    (hn : n < budget) : Machine.runFrom code limit budget s = r := by
  obtain ⟨k, rfl⟩ := Nat.exists_eq_add_of_lt hn
  rw [Nat.add_assoc, h.runFrom, Machine.runFrom]
  cases hr with
  | fault h => rw [h]
  | halted h => rw [h]

theorem runFrom_outOfSteps (h : Takes code n s t) (limit : Nat) {budget : Nat} (hn : budget ≤ n) :
    Machine.runFrom code limit budget s = .error (.outOfSteps limit) := by
  induction h generalizing budget with
  | refl =>
    obtain rfl := Nat.le_zero.1 hn
    rfl
  | head hs _ ih =>
    cases budget with
    | zero => rfl
    | succ budget =>
      rw [Machine.runFrom, hs]
      exact ih (Nat.le_of_succ_le_succ hn)

end Takes

end Machine

namespace Segmented

variable {size : Nat} {img : Image} {code : Array (Op Nat)} {Q : State → Prop} {n k : Nat}
  {t t' u : State}

theorem Steps.split (h : Steps img Q (n + k) t t') :
    ∃ u, Steps img Q n t u ∧ Steps img Q k u t' := by
  induction n generalizing t with
  | zero => exact ⟨t, .refl t, by simpa using h⟩
  | succ n ih =>
    rw [Nat.add_right_comm] at h
    cases h with
    | head hq hs hr =>
      obtain ⟨u, h₁, h₂⟩ := ih hr
      exact ⟨u, .head hq hs h₁, h₂⟩

/-- Runs of one length end in one state. -/
theorem Steps.unique (h₁ : Steps img Q n t t') (h₂ : Steps img Q n t u) : t' = u := by
  induction h₁ with
  | refl => cases h₂; rfl
  | head _ hs _ ih =>
    cases h₂ with
    | head _ hs' hr =>
      cases hs.symm.trans hs'
      exact ih hr

theorem Steps.mono {Q' : State → Prop} (hQ : ∀ u, Q u → Q' u) (h : Steps img Q n t t') :
    Steps img Q' n t t' := by
  induction h with
  | refl t => exact .refl t
  | head hq hs _ ih => exact .head (hQ _ hq) hs ih

theorem execute_grows {o : Op Label} (h : execute img t o = .next t') :
    t.heap <+: t'.heap ∧ t.made <:+ t'.made := by
  cases o <;>
    simp only [execute, State.push, State.popInto, State.binary, State.branch, State.jump,
      State.load, State.store, State.growHeap] at h <;>
    (repeat' split at h) <;> cases h <;> simp

/-- Neither the heap nor the objects made are ever given up. -/
theorem step_grows (h : step img t = .next t') : t.heap <+: t'.heap ∧ t.made <:+ t'.made := by
  unfold step at h
  split at h
  · rename_i p _
    obtain (o | l) | _ | site | cls := p
    case instr.op => exact execute_grows (t := { t with ip := t.ip + 1 }) h
    case instr.label => cases h
    case memoryEnd =>
      cases h
      exact ⟨List.prefix_rfl, List.suffix_rfl⟩
    case dispatch => exact execute_grows (t := { t with ip := t.ip + 1 }) (o := .js) h
    case construct =>
      simp only [perform] at h
      cases hst : State.store { t with ip := t.ip + 1 } with
      | next u =>
        have hsw : execute img { t with ip := t.ip + 1 } .sw = .next u := hst
        rw [hst] at h
        cases h
        exact ⟨(execute_grows hsw).1, List.suffix_cons _ _⟩
      | halted | fault | stuck => rw [hst] at h; cases h
  · cases h

theorem Steps.grows (h : Steps img Q n t t') : t.heap <+: t'.heap ∧ t.made <:+ t'.made := by
  induction h with
  | refl t => exact ⟨List.prefix_rfl, List.suffix_rfl⟩
  | head _ hs _ ih => exact ⟨(step_grows hs).1.trans ih.1, (step_grows hs).2.trans ih.2⟩

/-- A machine with a size that words can count is never beyond the room that there is. -/
theorem Corresponds.hasRoom (hsize : size < 2 ^ 63) {s : Machine.State}
    (h : Corresponds size t s) : t.Room := Nat.lt_of_le_of_lt h.room hsize

theorem Corresponds.stops_full (hsize : size < 2 ^ 63) {s : Machine.State}
    (h : Corresponds size t s) (hfull : ¬ t.Fits size) :
    Machine.Stops code s (.error (.heapMeetsStack s.sp s.hp)) :=
  .fault (h.step_full hsize hfull)

/-- A machine that makes `n` steps follows as many steps of the segmented machine. -/
theorem Steps.corresponds (hsize : size < 2 ^ 63) (hl : Links size img code)
    (hr : Steps img Q n t t') {s s' : Machine.State} (h : Corresponds size t s)
    (ht : Machine.Takes code n s s') : Corresponds size t' s' := by
  obtain ⟨s'', htakes, h''⟩ | ⟨k, s'', hk, htakes, hfull⟩ := hr.follow hsize hl h
  · exact ht.unique htakes ▸ h''
  · have := htakes.le_of_stops (.fault hfull) ht
    omega

/-- The result of a run that the segmented machine knows the end of. -/
theorem Steps.runFrom (hsize : size < 2 ^ 63) (hl : Links size img code)
    (hr : Steps img Q n t t') {s : Machine.State} (h : Corresponds size t s)
    {r : Except Fault Machine.Execution} (limit budget : Nat)
    (hstop : n < budget → ∀ s', Corresponds size t' s' → t'.Fits size → Machine.Stops code s' r) :
    Machine.runFrom code limit budget s = (if n < budget then r else .error (.outOfSteps limit)) ∨
      ∃ sp hp, Machine.runFrom code limit budget s = .error (.heapMeetsStack sp hp) := by
  obtain ⟨s', htakes, h'⟩ | ⟨k, s', hk, htakes, hfull⟩ := hr.follow hsize hl h
  · by_cases hn : n < budget
    · by_cases hfit : t'.Fits size
      · exact .inl (by rw [if_pos hn, htakes.runFrom_stops (hstop hn s' h' hfit) limit hn])
      · exact .inr ⟨_, _, htakes.runFrom_stops (h'.stops_full hsize hfit) limit hn⟩
    · exact .inl (by rw [if_neg hn, htakes.runFrom_outOfSteps limit (by omega)])
  · by_cases hb : k < budget
    · exact .inr ⟨_, _, htakes.runFrom_stops (.fault hfull) limit hb⟩
    · exact .inl (by rw [if_neg (by omega), htakes.runFrom_outOfSteps limit (by omega)])

/-- The heap of a run is never larger than at its end. -/
theorem Steps.heap_le (h : Steps img Q n t t') :
    Steps img (fun u => Q u ∧ u.heap.length ≤ t'.heap.length) n t t' := by
  induction h with
  | refl t => exact .refl t
  | head hq hs hr ih =>
    exact .head ⟨hq, ((step_grows hs).1.trans hr.grows.1).length_le⟩ hs ih

/-- Where there is always room, the machine follows to the end. -/
theorem Steps.follow_fits (hsize : size < 2 ^ 63) (hl : Links size img code)
    (hr : Steps img (State.Fits size) n t t') {s : Machine.State} (h : Corresponds size t s) :
    ∃ s', Machine.Takes code n s s' ∧ Corresponds size t' s' := by
  induction hr generalizing s with
  | refl t => exact ⟨s, .refl s, h⟩
  | head hfit hs _ ih =>
    have hstep := h.step hsize hl hfit
    rw [hs] at hstep
    obtain ⟨s₁, hs₁, h₁⟩ := hstep
    obtain ⟨s', hr', h'⟩ := ih h₁
    exact ⟨s', .head hs₁ hr', h'⟩

/-- The state is one in which every machine that has room ends its run with the result. -/
inductive Final (img : Image) (t : State) : Except Fault Machine.Execution → Prop where
  | halted {vs : List Int64} (hs : step img t = .halted) (hst : t.stack = vs.map Word.plain) :
      Final img t (.ok ⟨t.output, vs.reverse⟩)
  | fault {f : Fault} (hs : step img t = .fault f) : Final img t (.error f)

theorem Final.stops {r : Except Fault Machine.Execution} (hf : Final img t r)
    (hsize : size < 2 ^ 63) (hl : Links size img code) {s : Machine.State}
    (h : Corresponds size t s) (hfit : t.Fits size) : Machine.Stops code s r := by
  have hstep := h.step hsize hl hfit
  cases hf with
  | @halted vs hs hst =>
    rw [hs] at hstep
    have hstack : s.stack = vs.reverse := by
      rw [h.stack_eq hsize, hst, ← List.map_reverse, List.map_map]
      exact List.map_id _
    rw [← h.output, ← hstack]
    exact .halted hstep
  | fault hs =>
    rw [hs] at hstep
    exact .fault hstep

end Segmented

/-! ### What compilation promises -/

namespace Program

variable {p : Program} {options : Options} {c : Compiled}

/-- The steps of a compilation that succeeds. -/
theorem compile_ok (h : p.compile options = .ok c) :
    p.nameErrors = [] ∧ p.bind.check = .ok c.ty ∧
      p.bind.emit options.emittedFor = .ok c.code ∧ c.options = options := by
  unfold Program.compile at h
  split at h
  · rename_i hn
    split at h
    · cases h
    · rename_i ty hty
      split at h
      · cases h
      · rename_i code hcode
        cases h
        exact ⟨hn, hty, hcode, rfl⟩
  · cases h

/-- A program that compiles does so for every size of memory. -/
theorem compile_outline (h : p.compile options = .ok c) (options' : Options) :
    p.compile options' =
      .ok ⟨c.ty, p.bind.outline.map (Piece.erase options'.emittedFor), options'⟩ := by
  obtain ⟨hn, hty, hcode, -⟩ := compile_ok h
  simp only [Program.compile, hn, hty, Program.emit_outline hcode options'.emittedFor]

theorem code_eq_outline (h : p.compile options = .ok c) :
    c.code = p.bind.outline.map (Piece.erase options.emittedFor) := by
  have hc := h.symm.trans (compile_outline h options)
  simp only [Except.ok.injEq] at hc
  rw [hc]

/-- **A program that compiles is accepted.** -/
theorem accepted_of_compile {nulls plainTypes : Prop} (h : p.compile options = .ok c)
    (hlen : c.code.length < 2 ^ 63)
    (hplain : plainTypes → ∀ ty ∈ p.annotations, ty.isPlain = true)
    (hfields : nulls → ∀ c ∈ p.classes, ∀ f ∈ c.fields, f.ty.isMethod = false)
    (hnulls : p.mentionsNull = true → nulls) : p.Accepted nulls plainTypes := by
  obtain ⟨hn, hty, hcode, -⟩ := compile_ok h
  obtain ⟨hdecls, hmain⟩ := Program.check_ok hty
  refine ⟨hn, hdecls, ?_, ⟨_, _, hcode⟩, ?_, hplain, hfields, hnulls⟩
  · refine IsBound.ok_of_reported ?_ hmain
    have hmain : p.bind.main = p.main.bind (p.mainEnv .empty) := by cases p <;> rfl
    rw [hmain]
    simp only [Program.nameErrors, Program.nameErrorsIn, List.append_eq_nil_iff] at hn
    exact p.main.isBound_infer hn.2
  · rw [code_eq_outline h, List.length_map] at hlen
    exact Nat.lt_of_le_of_lt List.countP_le_length hlen

theorem accepted_of_plain (h : p.compile options = .ok c) (hlen : c.code.length < 2 ^ 63)
    (hplain : ∀ ty ∈ p.annotations, ty.isPlain = true) :
    p.Accepted (p.mentionsNull = true) True :=
  accepted_of_compile h hlen (fun _ => hplain)
    (fun _ cls hcls f hf => Ty.isMethod_of_isPlain (hplain f.ty (List.mem_append_left _
      (List.mem_flatMap.2 ⟨cls, hcls, List.mem_append_left _ (List.mem_map_of_mem hf)⟩))))
    id

/-- The code of a program, assembled for the machine that it was emitted for. -/
theorem links_of_compile (h : p.compile options = .ok c) {ops : List (Op Nat)}
    (hops : c.code.assemble = .ok ops) :
    Links options.emittedFor (Image.ofPieces p.bind.outline) ops.toArray := by
  obtain ⟨ops', hops', -, hl⟩ := p.bind.assemble_outline options.emittedFor
  rw [code_eq_outline h] at hops
  cases hops.symm.trans hops'
  exact hl

/-- Compiled code can be assembled, and its run is that of the assembled code. -/
theorem run_of_compile (h : p.compile options = .ok c) :
    ∃ ops, c.code.assemble = .ok ops ∧
      c.run = Machine.runFrom ops.toArray options.machine.maxSteps options.machine.maxSteps
        (.initial options.machine.memorySize) := by
  obtain ⟨ops, hops, -, -⟩ := p.bind.assemble_outline options.emittedFor
  rw [← code_eq_outline h] at hops
  refine ⟨ops, hops, ?_⟩
  rw [Compiled.run, (compile_ok h).2.2.2, Machine.run, hops]

end Program

/-! ### Runs of accepted programs -/

/-- The faults that the run of an accepted program may end with: it runs out of memory or steps,
it divides by zero, or it takes `null` for an object or a function. -/
def Fault.Permitted (nulls : Prop) (maxSteps : Nat) : Fault → Prop
  | .heapMeetsStack _ _ | .divisionByZero => True
  | .outOfSteps n => n = maxSteps
  | .badAddress a | .badJump a => nulls ∧ a = -1
  | .emptyStack | .badListing _ => False

/-- What the run of an accepted program may come to: one of these faults, or a value of the type of
the program. -/
def Program.Permits (p : Program) (nulls plainTypes : Prop) (maxSteps : Nat) :
    Except Fault Machine.Execution → Prop
  | .error f => f.Permitted nulls maxSteps
  | .ok e => ∃ v σ, e.top? = some v ∧ ∀ ty, p.bind.main.infer p.bind.hierarchy = .ok ty →
      (p.world nulls plainTypes 0).Holds σ ty v

namespace Program.Accepted

section Ends

variable {p : Program} {nulls plainTypes : Prop} (h : p.Accepted nulls plainTypes)
  (hplain : nulls → plainTypes)
include h hplain

/-- The segmented machine comes to an end, runs for as long as one likes, or runs into a state that
no machine has room for. -/
theorem exists_end (fuel : Nat) :
    ∃ n t, Steps (Image.ofPieces p.bind.outline) (p.world nulls plainTypes 0).Dispatches n
        .initial t ∧
      (¬ t.Room ∨ fuel ≤ n ∨ (∃ i, (Image.ofPieces p.bind.outline).piece t.ip = some (.instr i)) ∧
        ∃ r, Segmented.Final (Image.ofPieces p.bind.outline) t r ∧
          p.Permits nulls plainTypes fuel r) := by
  obtain ⟨n, t, hrun, hend⟩ :=
    h.simulates (Nat.le_refl ((fuel + 1) * (Image.ofPieces p.bind.outline).size))
  refine ⟨n, t, hrun.mono fun u hu => hu.dispatches, hend.imp (·.full) fun hend => ?_⟩
  -- one case for each way in which evaluation can end
  cases he : p.evaluate fuel with
  | ok a =>
    rw [he] at hend
    obtain ⟨hhalt, -, -, hvalue, vs, hst, -⟩ := hend
    have hst : t.stack = (a.1 :: vs).map Segmented.Word.plain := hst
    refine .inr ⟨⟨_, hhalt⟩, _, .halted ?_ hst, a.1, a.2, ?_, hvalue⟩
    · rw [Segmented.step, show (Image.ofPieces p.bind.outline).piece t.ip = _ from hhalt]
      rfl
    · simp [Machine.Execution.top?]
  | error e =>
    rw [he] at hend
    cases e with
    | divisionByZero =>
      obtain ⟨i, hi, hf⟩ := hend
      exact .inr ⟨⟨i, hi⟩, _, .fault hf, trivial⟩
    | noObject =>
      obtain ⟨hnulls, i, hi, hf⟩ := hend
      exact .inr ⟨⟨i, hi⟩, _, .fault hf, hnulls, rfl⟩
    | noFunction =>
      obtain ⟨hnulls, hfault⟩ := hend
      obtain ⟨i, hi, hf⟩ := hfault (hplain hnulls)
      exact .inr ⟨⟨i, hi⟩, _, .fault hf, hnulls, rfl⟩
    | outOfFuel => exact .inl hend
    | meaningless => exact hend.elim

/-- **Up to running out of memory there is one outcome for all sizes of memory.** -/
theorem exists_outcome (maxSteps : Nat) :
    ∃ r : Except Fault Machine.Execution, p.Permits nulls plainTypes maxSteps r ∧
      ∀ {size : Nat} {code : Array (Op Nat)}, size < 2 ^ 63 →
        Links size (Image.ofPieces p.bind.outline) code →
        Machine.runFrom code maxSteps maxSteps (.initial size) = r ∨
          ∃ sp hp, Machine.runFrom code maxSteps maxSteps (.initial size) =
            .error (.heapMeetsStack sp hp) := by
  obtain ⟨n, t, hrun, hend⟩ := h.exists_end hplain maxSteps
  by_cases hfinal : n < maxSteps ∧ t.Room
  · obtain hroom | hfuel | ⟨-, r, hr, hpermitted⟩ := hend
    · exact absurd hfinal.2 hroom
    · omega
    · refine ⟨r, hpermitted, fun {size code} hsize hl => ?_⟩
      have hres := hrun.runFrom hsize hl (Segmented.corresponds_initial size) maxSteps maxSteps
        fun _ s hc hfit => hr.stops hsize hl hc hfit
      rwa [if_pos hfinal.1] at hres
  · refine ⟨.error (.outOfSteps maxSteps), rfl, fun {size code} hsize hl => ?_⟩
    have hres := hrun.runFrom hsize hl (Segmented.corresponds_initial size) (r := .error
      (.outOfSteps maxSteps)) maxSteps maxSteps
      fun hn s hc _ => absurd ⟨hn, hc.hasRoom hsize⟩ hfinal
    rwa [ite_self] at hres

end Ends

variable {p : Program} {nulls : Prop} (h : p.Accepted nulls True)
include h

section Runs

variable {size : Nat} (hsize : size < 2 ^ 63) {code : Array (Op Nat)}
  (hl : Links size (Image.ofPieces p.bind.outline) code)
include hsize hl

/-- **Every state of a run is one of the segmented machine's**, and its method calls are made as
they should be. -/
theorem visits {n : Nat} {s : Machine.State} (hs : Machine.Takes code n (.initial size) s) :
    ∃ t, Steps (Image.ofPieces p.bind.outline) (p.world nulls True 0).Dispatches n .initial t ∧
      Corresponds size t s ∧ (t.Fits size → (p.world nulls True 0).Dispatches t) := by
  have hinit := Segmented.corresponds_initial size
  obtain ⟨m, t, hrun, hend⟩ := h.exists_end (fun _ => trivial) (n + 1)
  rcases Nat.lt_or_ge n m with hlt | hge
  · -- the segmented run goes on after the state
    obtain ⟨k, rfl⟩ := Nat.exists_eq_add_of_lt hlt
    rw [Nat.add_assoc] at hrun
    obtain ⟨u, hu, hrest⟩ := hrun.split
    refine ⟨u, hu, hu.corresponds hsize hl hinit hs, fun _ => ?_⟩
    cases hrest with
    | head hq _ _ => exact hq
  · -- the segmented run has ended, and so has that of the machine
    obtain ⟨s', hs', hc⟩ | ⟨k, s', hk, hs', hfull⟩ := hrun.follow hsize hl hinit
    · have hstop : n = m ∧ (t.Fits size → (p.world nulls True 0).Dispatches t) := by
        by_cases hfit : t.Fits size
        · obtain hroom | hfuel | ⟨⟨i, hi⟩, r, hfinal, -⟩ := hend
          · exact absurd (hc.hasRoom hsize) hroom
          · omega
          · have hle := hs'.le_of_stops (hfinal.stops hsize hl hc hfit) hs
            refine ⟨Nat.le_antisymm hle hge, fun _ site hsite => ?_⟩
            have hne := hi.symm.trans hsite
            cases hne
        · have hle := hs'.le_of_stops (hc.stops_full hsize hfit) hs
          exact ⟨Nat.le_antisymm hle hge, fun hfit' => absurd hfit' hfit⟩
      obtain ⟨rfl, hdispatches⟩ := hstop
      exact ⟨t, hrun, hs.unique hs' ▸ hc, hdispatches⟩
    · have := hs'.le_of_stops (.fault hfull) hs
      omega

end Runs

/-- The faults of programs whose annotations are all plain. -/
theorem exists_result (maxSteps : Nat) :
    ∃ r : Except Fault Machine.Execution, (∀ f, r = .error f → f.Permitted nulls maxSteps) ∧
      ∀ {size : Nat} {code : Array (Op Nat)}, size < 2 ^ 63 →
        Links size (Image.ofPieces p.bind.outline) code →
        Machine.runFrom code maxSteps maxSteps (.initial size) = r ∨
          ∃ sp hp, Machine.runFrom code maxSteps maxSteps (.initial size) =
            .error (.heapMeetsStack sp hp) := by
  obtain ⟨r, hpermits, hr⟩ := h.exists_outcome (fun _ => trivial) maxSteps
  refine ⟨r, ?_, hr⟩
  rintro f rfl
  exact hpermits

end Program.Accepted

/-- **A program without classes halts where its evaluation ends**, with as much memory for each
nested call as it has code. -/
theorem Program.Accepted.halts {p : Program} {nulls plainTypes : Prop}
    (h : p.Accepted nulls plainTypes) (hclasses : p.classes = []) {fuel : Nat} {v : Int64}
    {σ : Reference.Store} (he : p.evaluate fuel = .ok (v, σ)) :
    ∃ n, ∀ {size : Nat} {code : Array (Op Nat)}, size < 2 ^ 63 →
      (fuel + 1) * (Image.ofPieces p.bind.outline).size < size →
      Links size (Image.ofPieces p.bind.outline) code →
      ∃ s vs, Machine.Takes code n (.initial size) s ∧ vs.length = p.frameSize ∧
        Machine.Stops code s (.ok ⟨σ.output, vs ++ [v]⟩) := by
  have hsim := h.simulates (Nat.le_refl ((fuel + 1) * (Image.ofPieces p.bind.outline).size))
  generalize hlimit : (fuel + 1) * (Image.ofPieces p.bind.outline).size = limit at hsim ⊢
  have hbare : (p.world nulls plainTypes limit).Bare := by
    intro cls
    cases hlayout : (p.world nulls plainTypes limit).classes.layout? cls with
    | none => rfl
    | some l =>
      obtain ⟨st, hst, -⟩ := h.exists_stage_of_layout hlayout
      rw [Program.stages, hclasses] at hst
      cases hst
  obtain ⟨n, t, hrun, hend⟩ := hsim
  refine ⟨n, fun {size code} hsize hfits hl => ?_⟩
  rcases hend with hover | hend
  · refine absurd ?_ hover.full
    have hlow := hover.low
    rw [Segmented.State.Room, hover.bare hbare]
    exact Nat.lt_of_le_of_lt hlow (Nat.lt_trans hfits hsize)
  · rw [he] at hend
    obtain ⟨hhalt, hsound, hlow, -, vs, hst, hlen⟩ := hend
    have hheap : t.heap.length = 0 := by rw [hsound.bare hbare]; rfl
    have hfit : ∀ u : Segmented.State, u.stack.length ≤ limit → u.heap.length ≤ t.heap.length →
        u.Fits size := fun u h₁ h₂ => by
      unfold Segmented.State.Fits
      omega
    have hall : Steps (Image.ofPieces p.bind.outline) (Segmented.State.Fits size) n .initial t :=
      hrun.heap_le.mono fun u hu => hfit u hu.1.low hu.2
    obtain ⟨s, htakes, hc⟩ := hall.follow_fits hsize hl (Segmented.corresponds_initial size)
    have hfinal : Segmented.Final (Image.ofPieces p.bind.outline) t
        (.ok ⟨t.output, (v :: vs).reverse⟩) := by
      refine .halted ?_ hst
      rw [Segmented.step, show (Image.ofPieces p.bind.outline).piece t.ip = _ from hhalt]
      rfl
    refine ⟨s, vs.reverse, htakes, by rw [List.length_reverse, hlen], ?_⟩
    rw [← List.reverse_cons, ← hsound.output]
    exact hfinal.stops hsize hl hc (hfit t hlow (Nat.le_refl _))

end ObjectLang
