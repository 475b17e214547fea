import ObjectLang.Machine.Run
import ObjectLang.Proofs.Code.Placement

/-!
# The segmented machine

A second reading of code, in which stack and heap are lists of their own and words are told apart:
a word is plain or it is the address of a stack cell.  Stack addresses are counted from the bottom
of the stack, so that nothing depends on the size of memory.

The segmented machine does less than the real one.  A stack address can only be moved by a plain
word, loaded from and kept in a register; the heap is only ever written at its end, cell by cell.
Where code does anything else the machine is `stuck`.  It also remembers what a run cannot see: the
objects made so far and their classes.

`Segmented.Steps` is a run of given length in which every state satisfies a condition.
-/

namespace ObjectLang

namespace Segmented

/-- A word of the segmented machine. -/
inductive Word where
  /-- A plain word: a number, a code address or a heap address. -/
  | plain (value : Int64)
  /-- The address of the stack cell at a depth, counted from `1` at the bottom. -/
  | cell (depth : Int)
deriving DecidableEq

/-- Move an address, or add plain words. -/
def Word.add : Word → Word → Option Word
  | .plain a, .plain b => some (.plain (a + b))
  | .cell d, .plain b => some (.cell (d - b.toInt))
  | _, .cell _ => none

/-- A state of the segmented machine. -/
structure State where
  /-- The stack, its top first. -/
  stack : List Word
  /-- The heap, from address `0`. -/
  heap : List Int64
  /-- The word stored just past the heap, not yet part of it. -/
  pending : Option Int64
  /-- Address of the next operation. -/
  ip : Nat
  /-- Frame pointer. -/
  fp : Word
  /-- Return address. -/
  ra : Word
  /-- Scratch register. -/
  tm : Word
  /-- The words output so far. -/
  output : List Int64
  /-- The objects made so far and their classes, the last one first. -/
  made : List (Int64 × String)

/-- What one step leads to. -/
inductive Outcome where
  | next (s : State)
  | halted
  | fault (f : Fault)
  /-- The code does something that the segmented machine has no reading for. -/
  | stuck

namespace State

variable (s : State)

/-- The state in which a machine starts: its frame begins at the bottom of the stack. -/
def initial : State where
  stack := []
  heap := []
  pending := none
  ip := 0
  fp := .cell 0
  ra := .plain 0
  tm := .plain 0
  output := []
  made := []

/-- Push a word. -/
def push (w : Word) : State := { s with stack := w :: s.stack }

/-- The first free address of the heap. -/
def hp : Int64 := Int64.ofNat s.heap.length

/-- The word at an address. -/
def read : Word → Option Word
  | .cell d => if 1 ≤ d then s.stack.reverse[d.toNat - 1]? else none
  | .plain a => if 0 ≤ a then s.heap[a.toNatClampNeg]?.map .plain else none

/-- Pop into a register. -/
def popInto (set : Word → State → State) : Outcome :=
  match s.stack with
  | w :: stack => .next (set w { s with stack := stack })
  | [] => .stuck

/-- Replace two plain words by the value of a binary operation on them. -/
def binary (f : Int64 → Int64 → Int64) : Outcome :=
  match s.stack with
  | .plain b :: .plain a :: stack => .next { s with stack := .plain (f a b) :: stack }
  | _ => .stuck

/-- Pop two plain words and go to the target if they are related. -/
def branch (related : Int64 → Int64 → Bool) (target : Nat) : Outcome :=
  match s.stack with
  | .plain b :: .plain a :: stack =>
    .next { s with stack := stack, ip := if related a b then target else s.ip }
  | _ => .stuck

/-- Pop an address of code with `size` operations and go there. -/
def jump (size : Nat) : Outcome :=
  match s.stack with
  | .plain a :: stack =>
    if 0 ≤ a ∧ a.toNatClampNeg < size then
      .next { s with stack := stack, ip := a.toNatClampNeg, ra := .plain (Int64.ofNat s.ip) }
    else .fault (.badJump a)
  | _ => .stuck

/-- Replace an address by the word stored there. -/
def load : Outcome :=
  match s.stack with
  | a :: stack =>
    match { s with stack := stack }.read a with
    | some w => .next { s with stack := w :: stack }
    | none =>
      match a with
      | .plain a => if a < 0 then .fault (.badAddress a) else .stuck
      | .cell _ => .stuck
  | [] => .stuck

/-- Store a word just past the heap. -/
def store : Outcome :=
  match s.stack with
  | .plain a :: .plain v :: stack =>
    if a = s.hp then .next { s with stack := stack, pending := some v } else .stuck
  | _ => .stuck

/-- Take the word just past the heap into the heap. -/
def growHeap : Outcome :=
  match s.stack, s.pending with
  | .plain a :: stack, some v =>
    if a = s.hp + 1 then
      .next { s with stack := stack, heap := s.heap ++ [v], pending := none }
    else .stuck
  | _, _ => .stuck

end State

/-- The effect of an operation; the state's `ip` is already that of the operation after it. -/
def execute (img : Image) (s : State) : Op Label → Outcome
  | .push value => .next (s.push (.plain value))
  | .pushTarget l => .next (s.push (.plain (Int64.ofNat (img.address l))))
  | .pop => s.popInto fun _ s => s
  | .add =>
    match s.stack with
    | b :: a :: stack =>
      match a.add b with
      | some w => .next { s with stack := w :: stack }
      | none => .stuck
    | _ => .stuck
  | .sub => s.binary (· - ·)
  | .mult => s.binary (· * ·)
  | .div =>
    match s.stack with
    | .plain b :: .plain _ :: _ =>
      if b = 0 then .fault .divisionByZero else s.binary (· / ·)
    | _ => .stuck
  | .beq l => s.branch (fun a b => a == b) (img.address l)
  | .bleq l => s.branch (fun a b => decide (a ≤ b)) (img.address l)
  | .b l => .next { s with ip := img.address l }
  | .js => s.jump img.size
  | .lw => s.load
  | .sw => s.store
  | .lfp => .next (s.push s.fp)
  | .sfp => s.popInto fun w s => { s with fp := w }
  | .cfp => .next { s with fp := .cell s.stack.length }
  | .lra => .next (s.push s.ra)
  | .sra => s.popInto fun w s => { s with ra := w }
  | .ltm => .next (s.push s.tm)
  | .stm => s.popInto fun w s => { s with tm := w }
  | .lhp => .next (s.push (.plain s.hp))
  | .shp => s.growHeap
  | .print =>
    match s.stack with
    | .plain v :: _ => .next { s with output := s.output ++ [v] }
    | _ => .stuck
  | .halt => .halted

/-- The effect of a piece of code. -/
def perform (img : Image) (s : State) : Piece → Outcome
  | .instr (.op o) => execute img s o
  | .instr (.label _) => .stuck
  | .memoryEnd => .next (s.push (.cell 0))
  | .dispatch _ => s.jump img.size
  | .construct cls =>
    match s.store with
    | .next t => .next { t with made := (s.hp, cls) :: s.made }
    | o => o

/-- One step of the segmented machine. -/
def step (img : Image) (s : State) : Outcome :=
  match img.piece s.ip with
  | some p => perform img { s with ip := s.ip + 1 } p
  | none => .stuck

/-! ### Runs -/

variable (img : Image) (Q : State → Prop)

/-- A run of `n` steps through states that satisfy `Q`. -/
inductive Steps : Nat → State → State → Prop where
  | refl (s : State) : Steps 0 s s
  | head {n : Nat} {s t u : State} (hq : Q s) (hs : step img s = .next t) (hr : Steps n t u) :
      Steps (n + 1) s u

variable {img Q}

theorem Steps.trans {m n : Nat} {s t u : State} (h₁ : Steps img Q m s t)
    (h₂ : Steps img Q n t u) : Steps img Q (m + n) s u := by
  induction h₁ with
  | refl => simpa using h₂
  | head hq hs _ ih =>
    rw [Nat.add_right_comm]
    exact .head hq hs (ih h₂)

theorem Steps.single {s t : State} (hq : Q s) (hs : step img s = .next t) :
    Steps img Q 1 s t := .head hq hs (.refl t)

end Segmented

end ObjectLang
