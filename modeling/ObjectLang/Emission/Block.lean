import ObjectLang.Emission.Expr

/-!
# Code of declarations

A declaration leaves one word on the stack: a variable its value, a function the address of its
block.  Blocks are hoisted out of the code around them, those inside a routine before its own.

A frame holds, from the frame pointer upward, the access link, the arguments and the control link,
and downward the return address and the local declarations.  A block sets up the frame's lower
part and its end takes the whole frame down, leaving the result in its place.
-/

namespace ObjectLang

/-- The label of the block with the given number. -/
def blockLabel (k : Nat) : Label := "function" ++ Nat.repr k

/-- The end of a block with the given numbers of parameters and local declarations. -/
def epilogue (params locals : Nat) : List Instruction :=
  straight [.stm] ++ straight (List.replicate locals .pop) ++ straight [.sra, .pop] ++
    straight (List.replicate params .pop) ++ straight [.sfp, .ltm, .lra, .js]

/-- The block of a routine, on the code of its local declarations and of its body. -/
def blockCode (k : Nat) (params locals : Nat) (decls body : List Instruction) :
    List Instruction :=
  [.label (blockLabel k)] ++ straight [.cfp, .lra] ++ decls ++ body ++ epilogue params locals

/-- The code of a declaration: what stands in its place, and the blocks hoisted out of it. -/
structure Fragment where
  inline : List Instruction
  hoisted : List Instruction

namespace Fragment

/-- No code. -/
def empty : Fragment := ⟨[], []⟩

/-- One fragment after the other. -/
def append (a b : Fragment) : Fragment := ⟨a.inline ++ b.inline, a.hoisted ++ b.hoisted⟩

end Fragment

mutual

/-- Number of labels in the code of a declaration, block labels apart. -/
def Decl.labelCount : Decl → Nat
  | .var v => v.init.labelCount
  | .fn f => f.labelCount

/-- Number of labels in the block of a routine and the blocks inside it. -/
def Routine.labelCount : Routine → Nat
  | ⟨_, _, _, decls, body, _, _⟩ => Decl.labelCountAll decls + body.labelCount

/-- Number of labels in the code of several declarations. -/
def Decl.labelCountAll : List Decl → Nat
  | [] => 0
  | d :: ds => d.labelCount + Decl.labelCountAll ds

end

mutual

/-- Number of blocks that a declaration gives rise to. -/
def Decl.blockCount : Decl → Nat
  | .var _ => 0
  | .fn f => f.blockCount

/-- Number of blocks that a routine gives rise to. -/
def Routine.blockCount : Routine → Nat
  | ⟨_, _, _, decls, _, _, _⟩ => Decl.blockCountAll decls + 1

/-- Number of blocks that several declarations give rise to. -/
def Decl.blockCountAll : List Decl → Nat
  | [] => 0
  | d :: ds => d.blockCount + Decl.blockCountAll ds

end

mutual

/-- The code of a declaration, with labels from number `n` and blocks from number `k`. -/
def Decl.emit (memorySize : Nat) : Nat → Nat → Decl → Except EmitError Fragment
  | n, _, .var v => do
    let init ← v.init.emit memorySize n
    return ⟨init, []⟩
  | n, k, .fn f => do
    let blocks ← f.emitBlock memorySize n k
    return ⟨straight [.pushTarget (blockLabel k)], blocks⟩

/-- The block of a routine, which gets number `k`, after those inside it. -/
def Routine.emitBlock (memorySize : Nat) :
    Nat → Nat → Routine → Except EmitError (List Instruction)
  | n, k, ⟨_, params, _, decls, body, _, _⟩ => do
    let locals ← Decl.emitAll memorySize n (k + 1) decls
    let result ← body.emit memorySize (n + Decl.labelCountAll decls)
    return locals.hoisted ++ blockCode k params.length decls.length locals.inline result

/-- The code of several declarations. -/
def Decl.emitAll (memorySize : Nat) : Nat → Nat → List Decl → Except EmitError Fragment
  | _, _, [] => .ok .empty
  | n, k, d :: ds => do
    let first ← d.emit memorySize n k
    let rest ← Decl.emitAll memorySize (n + d.labelCount) (k + d.blockCount) ds
    return first.append rest

end

end ObjectLang
