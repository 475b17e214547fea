import ObjectLang.Machine.Run
import ObjectLang.Proofs.Code.Labels

/-!
# Heights of the stack

How many words are on the stack at a position of the code can be told from the code alone: every
operation takes a number of words and leaves a number of words (`Op.takes`, `Op.leaves`), and a jump
at a call site stands for the whole call.  `Reaches` follows all paths through code in this way,
whichever branches are taken, and `HeightAt` says that a position is reached and that the height is
the same on all paths to it.  Code is `Steady` if that is so at every position, if no operation
takes more words than there are, and if control leaves the code only at its end.

Paths are many, so heights are found by going through the code once from its start to its end, with
the heights at labels given (`Scan`).  `Scan.steady` says that code that can be gone through is
steady.
-/

namespace ObjectLang

namespace Op

variable {τ : Type}

/-- Number of words that an operation takes from the stack.  A jump takes what there is at a call
site with that many arguments: the control link, the arguments, the access link and the address. -/
def takes (args : Nat) : Op τ → Nat
  | push _ | pushTarget _ | b _ | lfp | cfp | lra | ltm | lhp | halt => 0
  | pop | lw | sfp | sra | stm | shp | print => 1
  | add | sub | mult | div | beq _ | bleq _ | sw => 2
  | js => args + 3

/-- Number of words that an operation leaves on the stack.  A jump leaves the result of the call. -/
def leaves : Op τ → Nat
  | push _ | pushTarget _ | add | sub | mult | div | js | lw | lfp | lra | ltm | lhp | print => 1
  | pop | beq _ | bleq _ | b _ | sw | sfp | cfp | sra | stm | shp | halt => 0

/-- Where an operation may branch to. -/
def branchTarget? : Op τ → Option τ
  | beq t | bleq t | b t => some t
  | _ => none

/-- May the operation be followed by the next one?  A jump is, after the call. -/
def goesOn : Op τ → Bool
  | b _ | halt => false
  | _ => true

end Op

namespace Machine

variable {size : Nat} {s t : State}

theorem State.sp_of_store {address value : Int64} (h : s.store address value = .ok t) :
    t.sp = s.sp := by
  simp only [State.store] at h
  split at h <;> cases h
  rfl

theorem State.sp_of_push {value : Int64} (h : s.push value = .ok t) : t.sp = s.sp - 1 := by
  simp only [State.push] at h
  split at h
  · cases h
  · exact State.sp_of_store h

theorem State.sp_of_pop {value : Int64} (h : s.pop = .ok (value, t)) : t.sp = s.sp + 1 := by
  simp only [State.pop, bind_ok_iff] at h
  obtain ⟨v, -, h⟩ := h
  cases h
  rfl

theorem State.sp_of_popTwo {left right : Int64} (h : s.popTwo = .ok (left, right, t)) :
    t.sp = s.sp + 2 := by
  simp only [State.popTwo, bind_ok_iff] at h
  obtain ⟨⟨v, s₁⟩, h₁, ⟨w, s₂⟩, h₂, h⟩ := h
  cases h
  rw [State.sp_of_pop h₂, State.sp_of_pop h₁, Int64.add_assoc]
  rfl

/-- The machine moves its stack pointer as an operation says.  A jump is left out: it stands for a
whole call. -/
theorem sp_of_execute {o : Op Nat} (h : execute size s o = .ok t) (ho : o ≠ .js) :
    t.sp = s.sp + .ofNat (o.takes 0) - .ofNat o.leaves := by
  have hwords : Int64.ofNat 0 = 0 ∧ Int64.ofNat 1 = 1 ∧ Int64.ofNat 2 = 2 := ⟨rfl, rfl, rfl⟩
  cases o <;>
    simp only [execute, State.binary, State.branch, bind_ok_iff, Prod.exists, pure, Except.pure,
      Except.ok.injEq] at h <;>
    simp only [Op.takes, Op.leaves, hwords] <;>
    grind [→ State.sp_of_push, → State.sp_of_pop, → State.sp_of_popTwo, → State.sp_of_store]

end Machine

/-! ### Paths -/

/-- Number of arguments at the call site whose jump is at a position, where `calls` are those of all
jumps in the code. -/
def argsAt (calls : List Nat) (code : List Instruction) (i : Nat) : Nat :=
  calls.getD ((code.take i).count (.op .js)) 0

/-- A path through code, entered with the given number of words on the stack, comes to a position
with some number of words. -/
inductive Reaches (calls : List Nat) (code : List Instruction) (entry : Nat) : Nat → Nat → Prop
  | enter : Reaches calls code entry 0 entry
  | label {i h : Nat} {l : Label} : Reaches calls code entry i h → code[i]? = some (.label l) →
      Reaches calls code entry (i + 1) h
  | next {i h : Nat} {o : Op Label} : Reaches calls code entry i h → code[i]? = some (.op o) →
      o.goesOn = true → o.takes (argsAt calls code i) ≤ h →
      Reaches calls code entry (i + 1) (h - o.takes (argsAt calls code i) + o.leaves)
  | branch {i j h : Nat} {o : Op Label} {l : Label} : Reaches calls code entry i h →
      code[i]? = some (.op o) → o.branchTarget? = some l → code[j]? = some (.label l) →
      o.takes (argsAt calls code i) ≤ h →
      Reaches calls code entry j (h - o.takes (argsAt calls code i))

/-- All paths to a position come with the same number of words, and there are some. -/
def HeightAt (calls : List Nat) (code : List Instruction) (entry i h : Nat) : Prop :=
  ∀ h', Reaches calls code entry i h' ↔ h' = h

/-- Code that can be entered with some words on the stack and left with others. -/
structure Steady (calls : List Nat) (code : List Instruction) (entry exit : Nat) : Prop where
  /-- There is one number of arguments for each jump. -/
  jumps : calls.length = code.count (.op .js)
  height : ∀ i ≤ code.length, ∃ h, HeightAt calls code entry i h
  /-- No operation takes more words than there are. -/
  enough : ∀ {i h o}, Reaches calls code entry i h → code[i]? = some (.op o) →
    o.takes (argsAt calls code i) ≤ h
  /-- Branches stay inside. -/
  inside : ∀ {o l}, .op o ∈ code → o.branchTarget? = some l → .label l ∈ code
  exit : HeightAt calls code entry code.length exit

/-- Code that leaves one word, and takes none but its own. -/
def Rises (calls : List Nat) (code : List Instruction) : Prop := Steady calls code 0 1

/-! ### Going through code once -/

/-- What is known at a position when code is gone through from its start. -/
structure Scan where
  /-- The height, if the position can be reached from the one before. -/
  height : Option Nat
  /-- The labels that the code so far may branch to. -/
  seen : List Label
  /-- The numbers of arguments of the jumps to come. -/
  calls : List Nat

/-- The labels that code may branch to. -/
def branches (code : List Instruction) : List Label :=
  code.filterMap fun
    | .op o => o.branchTarget?
    | .label _ => none

/-- All branches in the code go to labels in the code. -/
def StaysInside (code : List Instruction) : Prop := ∀ l ∈ branches code, .label l ∈ code

namespace Scan

variable (lab : Label → Nat)

/-- Go on to the next position.  A label has to be reached in some way, and always at its height. -/
def next (s : Scan) : Instruction → Option Scan
  | .label l =>
    match s.height with
    | some h => if h = lab l then some s else none
    | none => if l ∈ s.seen then some { s with height := some (lab l) } else none
  | .op o => s.height.bind fun h =>
    if o.takes (s.calls.headD 0) ≤ h ∧
        ∀ l ∈ o.branchTarget?, lab l = h - o.takes (s.calls.headD 0) then
      some
        { height := if o.goesOn then some (h - o.takes (s.calls.headD 0) + o.leaves) else none
          seen := o.branchTarget?.toList ++ s.seen
          calls := if o = .js then s.calls.tail else s.calls }
    else none

/-- Go through code. -/
@[simp] def through (s : Scan) : List Instruction → Option Scan
  | [] => some s
  | i :: code => (s.next lab i).bind fun s => s.through code

theorem through_append (s : Scan) (code code' : List Instruction) :
    s.through lab (code ++ code') = (s.through lab code).bind fun s => s.through lab code' := by
  induction code generalizing s with
  | nil => rfl
  | cons i code ih =>
    simp only [List.cons_append, through, ih, Option.bind_assoc]

variable {lab} {s s' fin : Scan} {code : List Instruction} {i : Nat}

/-- What going past a label does. -/
theorem next_label {l : Label} (h : s.next lab (.label l) = some s') :
    s' = { s with height := some (lab l) } ∧
      (s.height = some (lab l) ∨ s.height = none ∧ l ∈ s.seen) := by
  obtain ⟨_ | height, seen, calls⟩ := s
  · by_cases hl : l ∈ seen <;> simp_all [next]
  · by_cases hl : height = lab l <;> simp_all [next]

/-- What going past an operation does. -/
theorem next_op {o : Op Label} (h : s.next lab (.op o) = some s') :
    ∃ height, s.height = some height ∧ o.takes (s.calls.headD 0) ≤ height ∧
      (∀ l ∈ o.branchTarget?, lab l = height - o.takes (s.calls.headD 0)) ∧
      s' =
        { height := if o.goesOn then some (height - o.takes (s.calls.headD 0) + o.leaves) else none
          seen := o.branchTarget?.toList ++ s.seen
          calls := if o = .js then s.calls.tail else s.calls } := by
  obtain ⟨height, hheight, h⟩ := Option.bind_eq_some_iff.1 h
  split at h
  · rename_i hcond
    exact ⟨height, hheight, hcond.1, hcond.2, (Option.some.inj h).symm⟩
  · cases h

theorem through_take_drop (h : s.through lab code = some fin) (i : Nat) :
    ∃ m, s.through lab (code.take i) = some m ∧ m.through lab (code.drop i) = some fin := by
  rw [← List.take_append_drop i code, through_append] at h
  exact Option.bind_eq_some_iff.1 h

theorem through_take_succ {instr : Instruction} (h : s.through lab (code.take i) = some s')
    (hi : code[i]? = some instr) : s.through lab (code.take (i + 1)) = s'.next lab instr := by
  rw [List.take_add_one, hi, through_append, h]
  simp [through]

/-- The jumps gone past are those whose numbers of arguments have been used. -/
theorem calls_through (h : s.through lab code = some s') :
    s'.calls = s.calls.drop (code.count (.op .js)) := by
  induction code generalizing s with
  | nil =>
    cases h
    rfl
  | cons instr code ih =>
    obtain ⟨m, hm, hrest⟩ := Option.bind_eq_some_iff.1 h
    rw [ih hrest]
    cases instr with
    | label l =>
      obtain ⟨rfl, -⟩ := next_label hm
      simp
    | op o =>
      obtain ⟨height, -, -, -, rfl⟩ := next_op hm
      by_cases ho : o = .js <;> simp [ho, Nat.add_comm]

/-- The height found at a position.  A label that is not reached from the position before it has
the height given for it. -/
def Finds (lab : Label → Nat) (calls : List Nat) (code : List Instruction) (entry i h : Nat) :
    Prop :=
  ∃ m, (⟨some entry, [], calls⟩ : Scan).through lab (code.take i) = some m ∧
    (m.height = some h ∨ m.height = none ∧ ∃ l, code[i]? = some (.label l) ∧ lab l = h)

section Sound

variable {calls : List Nat} {entry exit : Nat}
  (hscan : (⟨some entry, [], calls⟩ : Scan).through lab code = some fin)
include hscan

/-- What is known at a position, and what the next instruction does with it. -/
theorem exists_next {instr : Instruction} (hi : code[i]? = some instr) :
    ∃ m m', (⟨some entry, [], calls⟩ : Scan).through lab (code.take i) = some m ∧
      (⟨some entry, [], calls⟩ : Scan).through lab (code.take (i + 1)) = some m' ∧
      m.next lab instr = some m' ∧ m.calls.headD 0 = argsAt calls code i := by
  obtain ⟨m, hm, -⟩ := through_take_drop hscan i
  obtain ⟨m', hm', -⟩ := through_take_drop hscan (i + 1)
  refine ⟨m, m', hm, hm', (through_take_succ hm hi).symm.trans hm', ?_⟩
  rw [calls_through hm, argsAt, List.headD_eq_head?_getD, List.head?_drop,
    List.getD_eq_getElem?_getD]

theorem finds_label {h : Nat} {l : Label} (hi : code[i]? = some (.label l)) :
    Finds lab calls code entry i h ↔ h = lab l := by
  obtain ⟨m, m', hm, -, hnext, -⟩ := exists_next hscan hi
  obtain ⟨-, hheight⟩ := next_label hnext
  constructor
  · rintro ⟨m₀, hm₀, hfound⟩
    cases hm.symm.trans hm₀
    rcases hfound with hfound | ⟨-, l', hl', rfl⟩
    · rcases hheight with hheight | ⟨hheight, -⟩ <;> simp_all
    · cases hi.symm.trans hl'
      rfl
  · rintro rfl
    exact ⟨m, hm, hheight.imp_right fun hnone => ⟨hnone.1, l, hi, rfl⟩⟩

theorem finds_op {h : Nat} {o : Op Label} (hi : code[i]? = some (.op o))
    (hfound : Finds lab calls code entry i h) :
    o.takes (argsAt calls code i) ≤ h ∧
      (∀ l ∈ o.branchTarget?, lab l = h - o.takes (argsAt calls code i)) ∧
      (o.goesOn = true →
        Finds lab calls code entry (i + 1) (h - o.takes (argsAt calls code i) + o.leaves)) := by
  obtain ⟨m, m', hm, hm', hnext, hargs⟩ := exists_next hscan hi
  obtain ⟨height, hheight, hle, hl, rfl⟩ := next_op hnext
  obtain ⟨m₀, hm₀, hfound⟩ := hfound
  cases hm.symm.trans hm₀
  obtain rfl : height = h := by
    rcases hfound with hfound | ⟨-, l, hl, -⟩
    · exact Option.some.inj (hheight.symm.trans hfound)
    · cases hi.symm.trans hl
  rw [hargs] at hle hl
  refine ⟨hle, hl, fun hgo => ⟨_, hm', .inl ?_⟩⟩
  rw [hargs, if_pos hgo]

/-- Heights on paths are those found. -/
theorem finds_of_reaches {h : Nat} (hr : Reaches calls code entry i h) :
    Finds lab calls code entry i h := by
  induction hr with
  | enter => exact ⟨_, rfl, .inl rfl⟩
  | label hr hi ih =>
    obtain ⟨m, m', -, hm', hnext, -⟩ := exists_next hscan hi
    obtain ⟨rfl, -⟩ := next_label hnext
    rw [(finds_label hscan hi).1 ih]
    exact ⟨_, hm', .inl rfl⟩
  | next hr hi hgo hle ih => exact (finds_op hscan hi ih).2.2 hgo
  | branch hr hi hl hj hle ih =>
    rw [finds_label hscan hj, (finds_op hscan hi ih).2.1 _ hl]

/-- Every position has a height. -/
theorem exists_finds (hfin : fin.height = some exit) (i : Nat) :
    ∃ h, Finds lab calls code entry i h := by
  obtain ⟨m, hm, hrest⟩ := through_take_drop hscan i
  cases hheight : m.height with
  | some h => exact ⟨h, m, hm, .inl hheight⟩
  | none =>
    -- only a label can come next
    cases hinstr : code[i]? with
    | none =>
      rw [List.drop_eq_nil_of_le (List.getElem?_eq_none_iff.1 hinstr)] at hrest
      cases hrest
      cases hheight.symm.trans hfin
    | some instr =>
      obtain ⟨m₀, m', hm₀, -, hnext, -⟩ := exists_next hscan hinstr
      cases hm.symm.trans hm₀
      cases instr with
      | label l => exact ⟨lab l, m, hm, .inr ⟨hheight, l, hinstr, rfl⟩⟩
      | op o =>
        obtain ⟨height, hsome, -⟩ := next_op hnext
        cases hheight.symm.trans hsome

/-- The heights found are those of paths.  Going through the code, the labels seen so far are those
that paths branch to. -/
theorem reaches_of_through {m : Scan} (hi : i ≤ code.length)
    (hm : (⟨some entry, [], calls⟩ : Scan).through lab (code.take i) = some m) :
    (∀ h, m.height = some h → Reaches calls code entry i h) ∧
      ∀ l ∈ m.seen, ∀ j, code[j]? = some (.label l) → Reaches calls code entry j (lab l) := by
  induction i generalizing m with
  | zero =>
    cases hm
    simp only [Option.some.injEq, List.not_mem_nil, false_imp_iff, implies_true, and_true]
    rintro h rfl
    exact .enter
  | succ i ih =>
    obtain ⟨instr, hinstr⟩ : ∃ instr, code[i]? = some instr :=
      ⟨_, List.getElem?_eq_getElem (by omega)⟩
    obtain ⟨m₀, m', hm₀, hm', hnext, hargs⟩ := exists_next hscan hinstr
    cases hm'.symm.trans hm
    obtain ⟨hheight, hseen⟩ := ih (by omega) hm₀
    cases instr with
    | label l =>
      obtain ⟨rfl, hreached⟩ := next_label hnext
      refine ⟨fun h hh => ?_, hseen⟩
      cases hh
      rcases hreached with hreached | ⟨-, hl⟩
      · exact .label (hheight _ hreached) hinstr
      · exact .label (hseen l hl i hinstr) hinstr
    | op o =>
      obtain ⟨height, hsome, hle, hl, rfl⟩ := next_op hnext
      rw [hargs] at hle hl
      have hr := hheight _ hsome
      refine ⟨fun h hh => ?_, fun l hmem j hj => ?_⟩
      · by_cases hgo : o.goesOn = true
        · rw [hargs, if_pos hgo, Option.some.injEq] at hh
          exact hh ▸ .next hr hinstr hgo hle
        · rw [if_neg hgo] at hh
          cases hh
      · rcases List.mem_append.1 hmem with hmem | hmem
        · have htarget := Option.mem_toList.1 hmem
          exact hl l htarget ▸ .branch hr hinstr htarget hj hle
        · exact hseen l hmem j hj

theorem reaches_of_finds {h : Nat} (hi : i ≤ code.length)
    (hfound : Finds lab calls code entry i h) : Reaches calls code entry i h := by
  obtain ⟨m, hm, hsome | ⟨hnone, l, hl, rfl⟩⟩ := hfound
  · exact (reaches_of_through hscan hi hm).1 h hsome
  · -- the code goes on past the label, so that it has been seen
    obtain ⟨m₀, m', hm₀, -, hnext, -⟩ := exists_next hscan hl
    cases hm.symm.trans hm₀
    rcases (next_label hnext).2 with hsome | ⟨-, hseen⟩
    · cases hnone.symm.trans hsome
    · exact (reaches_of_through hscan hi hm).2 l hseen i hl

theorem heightAt_of_finds {h : Nat} (hi : i ≤ code.length)
    (hfound : Finds lab calls code entry i h) : HeightAt calls code entry i h := by
  refine fun h' => ⟨fun hr => ?_, fun heq => heq ▸ reaches_of_finds hscan hi hfound⟩
  obtain ⟨m, hm, hheight⟩ := hfound
  obtain ⟨m', hm', hheight'⟩ := finds_of_reaches hscan hr
  -- both heights come from going through the code once
  cases hm.symm.trans hm'
  rcases hheight with hheight | ⟨hheight, l, hl, rfl⟩ <;>
    rcases hheight' with hheight' | ⟨hheight', l', hl', rfl⟩ <;> simp_all

end Sound

/-- Code that can be gone through is steady. -/
theorem steady {calls : List Nat} {entry exit : Nat}
    (hscan : (⟨some entry, [], calls⟩ : Scan).through lab code = some fin)
    (hfin : fin.height = some exit) (hjumps : calls.length = code.count (.op .js))
    (hinside : StaysInside code) : Steady calls code entry exit where
  jumps := hjumps
  height i hi := by
    obtain ⟨h, hfound⟩ := exists_finds hscan hfin i
    exact ⟨h, heightAt_of_finds hscan hi hfound⟩
  enough hr hi := (finds_op hscan hi (finds_of_reaches hscan hr)).1
  inside ho hl := hinside _ (List.mem_filterMap.2 ⟨_, ho, hl⟩)
  exit := by
    refine heightAt_of_finds hscan (Nat.le_refl _) ⟨fin, ?_, .inl hfin⟩
    rwa [List.take_length]

end Scan

end ObjectLang
