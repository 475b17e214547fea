import ObjectLang.Machine.State

/-!
# Running code

`step` executes one operation, and `run` repeats it within a budget of steps.  Before every
operation the machine checks that the stack is above the heap, then that the address of the
operation is inside the code.
-/

namespace ObjectLang

namespace Machine

/-- The size of a machine and the budget of a run. -/
structure Options where
  /-- Words of memory. -/
  memorySize : Nat := 10000
  /-- Steps after which a run is given up. -/
  maxSteps : Nat := 1000000
deriving DecidableEq

/-- What a run that halts leaves behind. -/
structure Execution where
  /-- The words output, in order. -/
  output : List Int64
  /-- The stack, from its bottom to its top. -/
  stack : List Int64
deriving DecidableEq

/-- The top of the final stack. -/
def Execution.top? (e : Execution) : Option Int64 := e.stack.getLast?

/-- Pop two words, the lower one first in the result. -/
def State.popTwo (s : State) : Except Fault (Int64 × Int64 × State) := do
  let (right, s) ← s.pop
  let (left, s) ← s.pop
  return (left, right, s)

/-- Replace two words by the value of a binary operation on them. -/
def State.binary (f : Int64 → Int64 → Int64) (s : State) : Except Fault State := do
  let (left, right, s) ← s.popTwo
  s.push (f left right)

/-- Pop two words and go to the target if they are related. -/
def State.branch (related : Int64 → Int64 → Bool) (target : Nat) (s : State) :
    Except Fault State := do
  let (left, right, s) ← s.popTwo
  return if related left right then { s with ip := target } else s

/-- The effect of an operation in code with `size` operations; the state's `ip` is already that of
the operation after it. -/
def execute (size : Nat) (s : State) : Op Nat → Except Fault State
  | .push value => s.push value
  | .pushTarget target => s.push (Int64.ofNat target)
  | .pop => do return (← s.pop).2
  | .add => s.binary (· + ·)
  | .sub => s.binary (· - ·)
  | .mult => s.binary (· * ·)
  | .div => do
    let (left, right, s) ← s.popTwo
    if right = 0 then .error .divisionByZero else s.push (left / right)
  | .beq target => s.branch (fun left right => left == right) target
  | .bleq target => s.branch (fun left right => decide (left ≤ right)) target
  | .b target => .ok { s with ip := target }
  | .js => do
    let (target, s) ← s.pop
    { s with ra := Int64.ofNat s.ip }.jump size target
  | .lw => do
    let (address, s) ← s.pop
    s.push (← s.load address)
  | .sw => do
    let (address, s) ← s.pop
    let (value, s) ← s.pop
    s.store address value
  | .lfp => s.push s.fp
  | .sfp => do
    let (value, s) ← s.pop
    return { s with fp := value }
  | .cfp => .ok { s with fp := s.sp }
  | .lra => s.push s.ra
  | .sra => do
    let (value, s) ← s.pop
    return { s with ra := value }
  | .ltm => s.push s.tm
  | .stm => do
    let (value, s) ← s.pop
    return { s with tm := value }
  | .lhp => s.push s.hp
  | .shp => do
    let (value, s) ← s.pop
    return { s with hp := value }
  | .print => do
    let value ← s.peek
    return { s with output := s.output.push value }
  | .halt => .ok s

/-- What one step leads to. -/
inductive Progress where
  /-- The machine goes on in this state. -/
  | running (s : State)
  /-- The machine has halted in this state. -/
  | halted (s : State)

/-- One step of the machine. -/
def step (code : Array (Op Nat)) (s : State) : Except Fault Progress :=
  if s.sp ≤ s.hp then .error (.heapMeetsStack s.sp s.hp)
  else match code[s.ip]? with
    | none => .error (.badJump (Int64.ofNat s.ip))
    | some .halt => .ok (.halted s)
    | some op => (execute code.size { s with ip := s.ip + 1 } op).map .running

/-- At most `n` steps of a run whose whole budget is `limit`. -/
def runFrom (code : Array (Op Nat)) (limit : Nat) : Nat → State → Except Fault Execution
  | 0, _ => .error (.outOfSteps limit)
  | n + 1, s =>
    match step code s with
    | .error f => .error f
    | .ok (.halted s) => .ok ⟨s.output.toList, s.stack⟩
    | .ok (.running s) => runFrom code limit n s

/-- Assemble a listing and run it. -/
def run (options : Options) (code : Listing) : Except Fault Execution :=
  match code.assemble with
  | .error cause => .error (.badListing cause)
  | .ok ops => runFrom ops.toArray options.maxSteps options.maxSteps (.initial options.memorySize)

end Machine

end ObjectLang
