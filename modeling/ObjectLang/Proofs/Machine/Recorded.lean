import ObjectLang.Machine.Run

/-!
# The recording machine

The operations of the machine once more, with a record of what they do on their way: which words
they read and write, and how they move the stack pointer.  The record is kept also where an
operation fails, and does not change what comes out (`Recorded.outcome_step`).

What is recorded can be replayed (`Event.replay`): where an operation succeeds, memory and stack
pointer are what its events make of them.  A postcondition of a recorded computation is therefore
one about its value and the replayed memory and stack pointer (`Recorded.Ensures`), and
postconditions compose along the computation (`Recorded.Ensures.bind`).
-/

namespace ObjectLang.Machine

/-- What an operation does to memory or to the stack pointer. -/
inductive Event where
  /-- The word at an index of the memory is read. -/
  | read (index : Nat) (value : Int64)
  /-- A word is written to an index of the memory. -/
  | write (index : Nat) (value : Int64)
  /-- The stack pointer is moved from where it is. -/
  | move (sp distance : Int64)
deriving DecidableEq

/-- Memory and stack pointer. -/
structure Core where
  memory : Array Int64
  sp : Int64

/-- Memory and stack pointer of a state. -/
def State.core (s : State) : Core := ⟨s.memory, s.sp⟩

/-- What an event makes of memory and stack pointer. -/
def Event.replay (c : Core) : Event → Core
  | read _ _ => c
  | write i v => { c with memory := c.memory.setIfInBounds i v }
  | move _ distance => { c with sp := c.sp + distance }

/-- A computation with a record of its events. -/
structure Recorded (α : Type) where
  events : List Event
  outcome : Except Fault α

namespace Recorded

variable {α β : Type}

/-- What has happened before a failure stays on record. -/
instance : Monad Recorded where
  pure a := ⟨[], .ok a⟩
  bind x f :=
    match x.outcome with
    | .ok a => ⟨x.events ++ (f a).events, (f a).outcome⟩
    | .error e => ⟨x.events, .error e⟩

/-- Record an event. -/
def note (e : Event) : Recorded Unit := ⟨[e], .ok ()⟩

/-- Fail. -/
def fail (f : Fault) : Recorded α := ⟨[], .error f⟩

/-! ### Operations -/

section

variable (s : State)

/-- The word at an address. -/
def load (address : Int64) : Recorded Int64 :=
  if s.inMemory address then do
    let value := s.memory.getD address.toNatClampNeg 0
    note (.read address.toNatClampNeg value)
    return value
  else fail (.badAddress address)

/-- Write a word to an address. -/
def store (address value : Int64) : Recorded State :=
  if s.inMemory address then do
    note (.write address.toNatClampNeg value)
    return { s with memory := s.memory.setIfInBounds address.toNatClampNeg value }
  else fail (.badAddress address)

/-- Push a word. -/
def push (value : Int64) : Recorded State := do
  let sp := s.sp - 1
  note (.move s.sp (-1))
  if sp < s.hp then fail (.heapMeetsStack sp s.hp) else store { s with sp := sp } sp value

/-- The word on top of the stack. -/
def peek : Recorded Int64 :=
  if s.base ≤ s.sp then fail .emptyStack else load s s.sp

/-- Pop a word. -/
def pop : Recorded (Int64 × State) := do
  let value ← peek s
  note (.move s.sp 1)
  return (value, { s with sp := s.sp + 1 })

/-- Pop two words, the lower one first in the result. -/
def popTwo : Recorded (Int64 × Int64 × State) := do
  let (right, s) ← pop s
  let (left, s) ← pop s
  return (left, right, s)

/-- Replace two words by the value of a binary operation on them. -/
def binary (f : Int64 → Int64 → Int64) : Recorded State := do
  let (left, right, s) ← popTwo s
  push s (f left right)

/-- Pop two words and go to the target if they are related. -/
def branch (related : Int64 → Int64 → Bool) (target : Nat) : Recorded State := do
  let (left, right, s) ← popTwo s
  return if related left right then { s with ip := target } else s

/-- The effect of an operation in code with `size` operations. -/
def execute (size : Nat) : Op Nat → Recorded State
  | .push value => push s value
  | .pushTarget target => push s (Int64.ofNat target)
  | .pop => do return (← pop s).2
  | .add => binary s (· + ·)
  | .sub => binary s (· - ·)
  | .mult => binary s (· * ·)
  | .div => do
    let (left, right, s) ← popTwo s
    if right = 0 then fail .divisionByZero else push s (left / right)
  | .beq target => branch s (fun left right => left == right) target
  | .bleq target => branch s (fun left right => decide (left ≤ right)) target
  | .b target => pure { s with ip := target }
  | .js => do
    let (target, s) ← pop s
    ⟨[], { s with ra := Int64.ofNat s.ip }.jump size target⟩
  | .lw => do
    let (address, s) ← pop s
    push s (← load s address)
  | .sw => do
    let (address, s) ← pop s
    let (value, s) ← pop s
    store s address value
  | .lfp => push s s.fp
  | .sfp => do
    let (value, s) ← pop s
    return { s with fp := value }
  | .cfp => pure { s with fp := s.sp }
  | .lra => push s s.ra
  | .sra => do
    let (value, s) ← pop s
    return { s with ra := value }
  | .ltm => push s s.tm
  | .stm => do
    let (value, s) ← pop s
    return { s with tm := value }
  | .lhp => push s s.hp
  | .shp => do
    let (value, s) ← pop s
    return { s with hp := value }
  | .print => do
    let value ← peek s
    return { s with output := s.output.push value }
  | .halt => pure s

/-- One step of the machine. -/
def step (code : Array (Op Nat)) : Recorded Progress :=
  if s.sp ≤ s.hp then fail (.heapMeetsStack s.sp s.hp)
  else match code[s.ip]? with
    | none => fail (.badJump (Int64.ofNat s.ip))
    | some .halt => pure (.halted s)
    | some op => do return .running (← execute { s with ip := s.ip + 1 } code.size op)

end

/-! ### Outcomes -/

@[simp] theorem outcome_bind (x : Recorded α) (f : α → Recorded β) :
    (x >>= f).outcome = x.outcome >>= fun a => (f a).outcome := by
  obtain ⟨events, outcome⟩ := x
  cases outcome <;> rfl

@[simp] theorem outcome_note_bind (e : Event) (f : Unit → Recorded β) :
    (note e >>= f).outcome = (f ()).outcome := rfl

variable {s : State}

@[simp] theorem outcome_load (address : Int64) : (load s address).outcome = s.load address := by
  unfold load State.load
  split <;> rfl

@[simp] theorem outcome_store (address value : Int64) :
    (store s address value).outcome = s.store address value := by
  unfold store State.store
  split <;> rfl

@[simp] theorem outcome_push (value : Int64) : (push s value).outcome = s.push value := by
  rw [push, outcome_note_bind, State.push, apply_ite outcome, outcome_store]
  rfl

@[simp] theorem outcome_peek : (peek s).outcome = s.peek := by
  rw [peek, State.peek, apply_ite outcome, outcome_load]
  rfl

@[simp] theorem outcome_pop : (pop s).outcome = s.pop := by
  rw [pop, outcome_bind, outcome_peek]
  rfl

@[simp] theorem outcome_popTwo : (popTwo s).outcome = s.popTwo := by
  simp only [popTwo, State.popTwo, outcome_bind, outcome_pop]
  rfl

/-- **The record changes nothing.** -/
theorem outcome_execute (size : Nat) (o : Op Nat) :
    (execute s size o).outcome = Machine.execute size s o := by
  cases o <;>
    simp only [execute, Machine.execute, binary, State.binary, branch, State.branch, outcome_bind,
      outcome_push, outcome_pop, outcome_popTwo, outcome_load, outcome_store, outcome_peek,
      apply_ite outcome] <;> rfl

theorem outcome_step (code : Array (Op Nat)) : (step s code).outcome = Machine.step code s := by
  unfold step Machine.step
  split
  · rfl
  · cases code[s.ip]? with
    | none => rfl
    | some o =>
      have hrun : (execute { s with ip := s.ip + 1 } code.size o >>= fun t =>
          pure (Progress.running t)).outcome =
            (Machine.execute code.size { s with ip := s.ip + 1 } o).map .running := by
        rw [outcome_bind, outcome_execute]
        cases Machine.execute code.size { s with ip := s.ip + 1 } o <;> rfl
      cases o with
      | halt => rfl
      | _ => exact hrun

/-! ### Postconditions -/

/-- Every event satisfies `P`, and what comes out satisfies `Q`, together with what the events have
made of memory and stack pointer. -/
structure Ensures (x : Recorded α) (c : Core) (P : Event → Prop) (Q : Core → α → Prop) :
    Prop where
  events : ∀ e ∈ x.events, P e
  outcome : ∀ a, x.outcome = .ok a → Q (x.events.foldl Event.replay c) a

variable {c : Core} {P : Event → Prop}

theorem ensures_pure {Q : Core → α → Prop} {a : α} (h : Q c a) :
    (pure a : Recorded α).Ensures c P Q where
  events := by simp [pure]
  outcome _ ha := Except.ok.inj ha ▸ h

theorem ensures_fail {Q : Core → α → Prop} (f : Fault) : (fail f : Recorded α).Ensures c P Q where
  events := by simp [fail]
  outcome _ ha := by cases ha

theorem Ensures.mono {Q R : Core → α → Prop} {x : Recorded α} (hx : x.Ensures c P Q)
    (h : ∀ d a, Q d a → R d a) : x.Ensures c P R :=
  ⟨hx.events, fun a ha => h _ a (hx.outcome a ha)⟩

/-- What the first part ensures is what the second part may rely on. -/
theorem Ensures.bind {Q : Core → α → Prop} {R : Core → β → Prop} {x : Recorded α}
    {f : α → Recorded β} (hx : x.Ensures c P Q) (hf : ∀ d a, Q d a → (f a).Ensures d P R) :
    (x >>= f).Ensures c P R := by
  obtain ⟨events, outcome⟩ := x
  cases outcome with
  | error e => exact ⟨hx.events, fun _ ha => by cases ha⟩
  | ok a =>
    have hrest := hf _ a (hx.outcome a rfl)
    refine ⟨fun e he => ?_, fun b hb => ?_⟩
    · rcases List.mem_append.1 he with he | he
      · exact hx.events e he
      · exact hrest.events e he
    · have hreplay := hrest.outcome b hb
      rwa [← List.foldl_append] at hreplay

theorem Ensures.note {e : Event} {f : Unit → Recorded β} {R : Core → β → Prop} (he : P e)
    (hf : (f ()).Ensures (e.replay c) P R) : (Recorded.note e >>= f).Ensures c P R where
  events := List.forall_mem_cons.2 ⟨he, hf.events⟩
  outcome := hf.outcome

end Recorded

end ObjectLang.Machine
