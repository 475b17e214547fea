import ObjectLang.Emission.Error
import ObjectLang.Machine.Op
import ObjectLang.Tree.Basic

/-!
# Code of expressions

The code of an expression leaves its value on top of the stack.

| expression | code |
|---|---|
| literal `n` | `push n` |
| `l + r` | `l; r; add` |
| `l >= r` | `r; l; sub; push 0`, then whether it is at most `0` |
| `if c then t else f` | `c; push 1; beq yes; f; b end; yes: t; end:` |
| variable | `lfp`, the links to its frame, `push offset; add; lw` |
| call | `lfp`, the arguments from the last to the first, the access link, `js` |
| `new` | the arguments, stored on the heap from the last to the first, then the table |

Labels are numbered in the order in which they are taken.  An expression takes as many as
`Expr.labelCount` says, so that code emitted from number `n` on has the labels with the numbers
from `n` to below `n + labelCount`.
-/

namespace ObjectLang

/-- The label with the given number. -/
def branchLabel (n : Nat) : Label := "label" ++ Nat.repr n

/-- Straight-line code: operations, and no label among them. -/
def straight (ops : List (Op Label)) : List Instruction := ops.map .op

/-! ### Fragments -/

/-- Advance the heap pointer by one. -/
def advanceHeap : List Instruction := straight [.lhp, .push 1, .add, .shp]

/-- Move the top of the stack to the heap. -/
def moveToHeap : List Instruction := straight [.lhp, .sw] ++ advanceHeap

/-- Follow access links from the frame or object on top of the stack. -/
def climbLinks (hops : Nat) : List Instruction := straight (List.replicate hops .lw)

/-- Replace the address on top by the word at an offset from it. -/
def loadAt (offset : Int) : List Instruction := straight [.push (Int64.ofInt offset), .add, .lw]

/-- Push the top once more. -/
def copyTop : List Instruction := straight [.stm, .ltm, .ltm]

/-- Push `1` if the branch to label `n` is taken and `0` otherwise. -/
def branchValue (branch : Label → Op Label) (n : Nat) : List Instruction :=
  straight [branch (branchLabel n), .push 0, .b (branchLabel (n + 1))] ++
    [.label (branchLabel n)] ++ straight [.push 1] ++ [.label (branchLabel (n + 1))]

/-- A conditional, on the code of its parts. -/
def condCode (n : Nat) (test yes no : List Instruction) : List Instruction :=
  test ++ straight [.push 1, .beq (branchLabel n)] ++ no ++ straight [.b (branchLabel (n + 1))] ++
    [.label (branchLabel n)] ++ yes ++ [.label (branchLabel (n + 1))]

/-- A conjunction, on the code of its operands: `0` as soon as one of them is `0`. -/
def andCode (n : Nat) (left right : List Instruction) : List Instruction :=
  left ++ straight [.push 0, .beq (branchLabel n)] ++
    right ++ straight [.push 0, .beq (branchLabel n), .push 1, .b (branchLabel (n + 1))] ++
    [.label (branchLabel n)] ++ straight [.push 0] ++ [.label (branchLabel (n + 1))]

/-- A disjunction, on the code of its operands: `1` as soon as one of them is not `0`. -/
def orCode (n : Nat) (left right : List Instruction) : List Instruction :=
  left ++ straight [.push 0, .beq (branchLabel n), .b (branchLabel (n + 1))] ++
    [.label (branchLabel n)] ++
    right ++ straight [.push 0, .beq (branchLabel (n + 2))] ++
    [.label (branchLabel (n + 1))] ++ straight [.push 1, .b (branchLabel (n + 3))] ++
    [.label (branchLabel (n + 2))] ++ straight [.push 0] ++ [.label (branchLabel (n + 3))]

/-- The value of a variable. -/
def identCode (b : Binding) : List Instruction :=
  straight [.lfp] ++ climbLinks b.hops ++ loadAt b.entry.offset

/-- A call, on the code of its arguments: the control link, the arguments and the access link,
then the jump.  A method called by its bare name is found in the object's dispatch table. -/
def callCode (b : Binding) (args : List Instruction) : List Instruction :=
  straight [.lfp] ++ args ++ straight [.lfp] ++ climbLinks b.hops ++ copyTop ++
    (if b.entry.isMethod then straight [.lw] else []) ++ loadAt b.entry.offset ++ straight [.js]

/-- A method call, on the code of its arguments.  The receiver is the access link, and its
dispatch table gives the address. -/
def sendCode (b : MethodBinding) (args : List Instruction) : List Instruction :=
  straight [.lfp] ++ args ++ straight [.lfp] ++ climbLinks b.hops ++ loadAt b.receiver.offset ++
    copyTop ++ straight [.lw] ++ loadAt b.method.offset ++ straight [.js]

/-- Make an object of `count` words on the stack: they go to the heap, the last one first, and
after them the address of the dispatch table, which the class left at its offset from the end of
memory. -/
def objectCode (memorySize : Nat) (cls : Entry) (count : Nat) : List Instruction :=
  (List.replicate count moveToHeap).flatten ++
    straight [.push (Int64.ofNat memorySize), .push (Int64.ofInt cls.offset), .add, .lw, .lhp, .sw,
      .lhp] ++ advanceHeap

/-- The operation of an arithmetic operator. -/
def ArithOp.op : ArithOp → Op Label
  | add => .add
  | sub => .sub
  | mul => .mult
  | div => .div

/-! ### Labels taken -/

mutual

/-- Number of labels in the code of an expression. -/
def Expr.labelCount : Expr → Nat
  | .int _ _ | .bool _ _ | .null _ | .ident _ _ _ => 0
  | .arith _ _ l r => l.labelCount + r.labelCount
  | .compare _ _ l r => l.labelCount + r.labelCount + 2
  | .logic _ .and l r => l.labelCount + r.labelCount + 2
  | .logic _ .or l r => l.labelCount + r.labelCount + 4
  | .not _ e => e.labelCount + 2
  | .cond _ c t f => c.labelCount + t.labelCount + f.labelCount + 2
  | .print _ e => e.labelCount
  | .call _ _ args _ | .send _ _ _ args _ | .new _ _ args _ => Expr.labelCountAll args

/-- Number of labels in the code of several expressions. -/
def Expr.labelCountAll : List Expr → Nat
  | [] => 0
  | e :: es => e.labelCount + Expr.labelCountAll es

end

/-! ### Code -/

/-- What is bound, if it is. -/
def requireBound {α : Type} (line : SourceLine) (name : String) : Option α → Except EmitError α
  | none => .error (.unbound line name)
  | some a => .ok a

mutual

/-- The code of an expression, with labels from number `n`, for a machine with the given size of
memory. -/
def Expr.emit (memorySize : Nat) : Nat → Expr → Except EmitError (List Instruction)
  | _, .int _ value => .ok (straight [.push value])
  | _, .bool _ value => .ok (straight [.push (if value then 1 else 0)])
  | _, .null _ => .ok (straight [.push (-1)])
  | n, .arith _ op l r => do
    let left ← l.emit memorySize n
    let right ← r.emit memorySize (n + l.labelCount)
    return left ++ right ++ straight [op.op]
  | n, .compare _ .eq l r => do
    let left ← l.emit memorySize n
    let right ← r.emit memorySize (n + l.labelCount)
    return left ++ right ++ branchValue .beq (n + l.labelCount + r.labelCount)
  | n, .compare _ .le l r => do
    let left ← l.emit memorySize n
    let right ← r.emit memorySize (n + l.labelCount)
    return left ++ right ++ branchValue .bleq (n + l.labelCount + r.labelCount)
  | n, .compare _ .ge l r => do
    let right ← r.emit memorySize n
    let left ← l.emit memorySize (n + r.labelCount)
    return right ++ left ++ straight [.sub, .push 0] ++
      branchValue .bleq (n + r.labelCount + l.labelCount)
  | n, .logic _ .and l r => do
    let left ← l.emit memorySize (n + 2)
    let right ← r.emit memorySize (n + 2 + l.labelCount)
    return andCode n left right
  | n, .logic _ .or l r => do
    let left ← l.emit memorySize (n + 4)
    let right ← r.emit memorySize (n + 4 + l.labelCount)
    return orCode n left right
  | n, .not _ e => do
    let operand ← e.emit memorySize n
    return operand ++ straight [.push 0] ++ branchValue .beq (n + e.labelCount)
  | n, .cond _ c t f => do
    let test ← c.emit memorySize (n + 2)
    let no ← f.emit memorySize (n + 2 + c.labelCount)
    let yes ← t.emit memorySize (n + 2 + c.labelCount + f.labelCount)
    return condCode n test yes no
  | n, .print _ e => do
    let operand ← e.emit memorySize n
    return operand ++ straight [.print]
  | _, .ident line name b => do
    let b ← requireBound line name b
    return identCode b
  | n, .call line name args b => do
    let b ← requireBound line name b
    let args ← Expr.emitReversed memorySize n args
    return callCode b args
  | n, .send line receiver _ args b => do
    let b ← requireBound line receiver b
    let args ← Expr.emitReversed memorySize n args
    return sendCode b args
  | n, .new line cls args entry => do
    let entry ← requireBound line cls entry
    let words ← Expr.emitAll memorySize n args
    return words ++ objectCode memorySize entry args.length

/-- The code of several expressions, from the first to the last. -/
def Expr.emitAll (memorySize : Nat) : Nat → List Expr → Except EmitError (List Instruction)
  | _, [] => .ok []
  | n, e :: es => do
    let first ← e.emit memorySize n
    let rest ← Expr.emitAll memorySize (n + e.labelCount) es
    return first ++ rest

/-- The code of several expressions, from the last to the first. -/
def Expr.emitReversed (memorySize : Nat) : Nat → List Expr → Except EmitError (List Instruction)
  | _, [] => .ok []
  | n, e :: es => do
    let rest ← Expr.emitReversed memorySize n es
    let first ← e.emit memorySize (n + Expr.labelCountAll es)
    return rest ++ first

end

end ObjectLang
