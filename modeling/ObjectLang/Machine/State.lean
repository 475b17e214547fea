import ObjectLang.Machine.Listing

/-!
# Machine states

The machine has one memory of words, shared by a heap that grows up from address `0` to `hp` and a
stack that grows down from the end of the memory to `sp`, and the registers `fp` (frame), `ra`
(return address) and `tm` (scratch).

`State.load` and `State.store` are the only access to memory, and `State.push` and `State.pop` the
only moves of the stack pointer.
-/

namespace ObjectLang

/-- Why a run ended without a result. -/
inductive Fault where
  /-- The stack has met the heap. -/
  | heapMeetsStack (sp hp : Int64)
  /-- The address is outside the memory. -/
  | badAddress (address : Int64)
  /-- There is nothing to pop. -/
  | emptyStack
  | divisionByZero
  /-- The address is outside the code. -/
  | badJump (address : Int64)
  /-- The run has not halted within the given number of steps. -/
  | outOfSteps (steps : Nat)
  /-- The listing could not be assembled. -/
  | badListing (cause : ListingError)
deriving DecidableEq

/-- The wording of the fault. -/
def Fault.message : Fault → String
  | heapMeetsStack sp hp =>
    "out of memory: stack met heap (sp = " ++ Text.writeWord sp ++ ", hp = " ++
      Text.writeWord hp ++ ")"
  | badAddress address => "address " ++ Text.writeWord address ++ " is outside memory"
  | emptyStack => "pop from an empty stack"
  | divisionByZero => "division by zero"
  | badJump address => "jump to " ++ Text.writeWord address ++ ", outside the code"
  | outOfSteps steps => "no halt after " ++ Nat.repr steps ++ " steps"
  | badListing cause => cause.message

namespace Machine

/-- A state of the machine. -/
structure State where
  /-- The memory, heap and stack. -/
  memory : Array Int64
  /-- Address of the next operation. -/
  ip : Nat
  /-- Address of the top of the stack. -/
  sp : Int64
  /-- Frame pointer. -/
  fp : Int64
  /-- First free address of the heap. -/
  hp : Int64
  /-- Return address. -/
  ra : Int64
  /-- Scratch register. -/
  tm : Int64
  /-- The words output so far. -/
  output : Array Int64
deriving DecidableEq

namespace State

/-- The state in which a machine with `size` words of memory starts. -/
def initial (size : Nat) : State where
  memory := Array.replicate size 0
  ip := 0
  sp := Int64.ofNat size
  fp := Int64.ofNat size
  hp := 0
  ra := 0
  tm := 0
  output := #[]

variable (s : State)

/-- The address just past the memory, where the stack begins. -/
def base : Int64 := Int64.ofNat s.memory.size

/-- Is the address one of the memory's? -/
def inMemory (address : Int64) : Bool :=
  decide (0 ≤ address) && decide (address.toNatClampNeg < s.memory.size)

/-- The word at an address. -/
def load (address : Int64) : Except Fault Int64 :=
  if s.inMemory address then .ok (s.memory.getD address.toNatClampNeg 0)
  else .error (.badAddress address)

/-- Write a word to an address. -/
def store (address value : Int64) : Except Fault State :=
  if s.inMemory address then
    .ok { s with memory := s.memory.setIfInBounds address.toNatClampNeg value }
  else .error (.badAddress address)

/-- Push a word. -/
def push (value : Int64) : Except Fault State :=
  let sp := s.sp - 1
  if sp < s.hp then .error (.heapMeetsStack sp s.hp)
  else { s with sp := sp }.store sp value

/-- The word on top of the stack. -/
def peek : Except Fault Int64 :=
  if s.base ≤ s.sp then .error .emptyStack else s.load s.sp

/-- Pop a word. -/
def pop : Except Fault (Int64 × State) := do
  let value ← s.peek
  return (value, { s with sp := s.sp + 1 })

/-- Go to an address of the code, which has `size` operations. -/
def jump (size : Nat) (address : Int64) : Except Fault State :=
  if 0 ≤ address ∧ address.toNatClampNeg < size then
    .ok { s with ip := address.toNatClampNeg }
  else .error (.badJump address)

/-- The stack, from its bottom to its top.  There is none if the stack pointer is no address. -/
def stack : List Int64 :=
  if 0 ≤ s.sp then (s.memory.toList.drop s.sp.toNatClampNeg).reverse else []

theorem stack_of_nonneg (h : 0 ≤ s.sp.toInt) :
    s.stack = (s.memory.toList.drop s.sp.toNatClampNeg).reverse :=
  if_pos (Int64.le_iff_toInt_le.2 (Int64.toInt_zero.symm ▸ h))

end State

end Machine

end ObjectLang
