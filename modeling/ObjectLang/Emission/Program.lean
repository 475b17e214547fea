import ObjectLang.Emission.Block
import ObjectLang.Machine.Listing

/-!
# Code of a whole program

Each class leaves the address of its dispatch table in the program's frame, where `new` finds it
by the offset of the class.  The table of a class is that of its superclass with the blocks of its
own methods in their slots.

The code of a program is that of its classes, declarations and expression, then `halt`, then all
hoisted blocks.
-/

namespace ObjectLang

/-- The labels of a class's methods, slot by slot. -/
abbrev DispatchTable := List Label

/-- Put a label into a slot, or at the end if there is no such slot. -/
def DispatchTable.place (table : DispatchTable) (slot : Nat) (label : Label) : DispatchTable :=
  if slot < table.length then table.set slot label else table ++ [label]

/-- Write a dispatch table to the heap and leave its address on the stack. -/
def DispatchTable.emit (table : DispatchTable) : List Instruction :=
  straight [.lhp] ++ table.flatMap fun l => straight [.pushTarget l] ++ moveToHeap

/-- The slot of a method in the dispatch table. -/
def Routine.slot (m : Routine) : Except EmitError Nat :=
  match m.offset with
  | some (.ofNat slot) => .ok slot
  | _ => .error (.noSlot m.line m.name)

/-- Methods give their blocks, and the table they are put into. -/
def emitMethods (memorySize : Nat) (n k : Nat) (table : DispatchTable) :
    List Routine → Except EmitError (DispatchTable × List Instruction)
  | [] => .ok (table, [])
  | m :: ms => do
    let slot ← m.slot
    let block ← m.emitBlock memorySize n k
    let (table, blocks) ← emitMethods memorySize (n + m.labelCount) (k + m.blockCount)
      (table.place slot (blockLabel k)) ms
    return (table, block ++ blocks)

namespace Routine

/-- Number of labels in the blocks of several routines. -/
def labelCountAll (fs : List Routine) : Nat := Decl.labelCountAll (fs.map .fn)

/-- Number of blocks that several routines give rise to. -/
def blockCountAll (fs : List Routine) : Nat := Decl.blockCountAll (fs.map .fn)

@[simp] theorem labelCountAll_cons (f : Routine) (fs : List Routine) :
    labelCountAll (f :: fs) = f.labelCount + labelCountAll fs := rfl

@[simp] theorem blockCountAll_cons (f : Routine) (fs : List Routine) :
    blockCountAll (f :: fs) = f.blockCount + blockCountAll fs := rfl

theorem labelCountAll_append (fs gs : List Routine) :
    labelCountAll (fs ++ gs) = labelCountAll fs + labelCountAll gs := by
  induction fs with
  | nil => exact (Nat.zero_add _).symm
  | cons f fs ih => rw [List.cons_append, labelCountAll_cons, labelCountAll_cons, ih, Nat.add_assoc]

theorem blockCountAll_append (fs gs : List Routine) :
    blockCountAll (fs ++ gs) = blockCountAll fs + blockCountAll gs := by
  induction fs with
  | nil => exact (Nat.zero_add _).symm
  | cons f fs ih => rw [List.cons_append, blockCountAll_cons, blockCountAll_cons, ih, Nat.add_assoc]

end Routine

namespace ClassDecl

/-- The dispatch table that a class starts from, among those emitted before it. -/
def inheritedTable (tables : NameMap DispatchTable) (c : ClassDecl) :
    Except EmitError DispatchTable :=
  match c.superclass with
  | none => .ok []
  | some superclass =>
    match tables.get? superclass with
    | some table => .ok table
    | none => .error (.missingTable c.name superclass)

/-- Number of labels in the blocks of a class. -/
def labelCount (c : ClassDecl) : Nat := Routine.labelCountAll c.methods

/-- Number of blocks of a class. -/
def blockCount (c : ClassDecl) : Nat := Routine.blockCountAll c.methods

/-- Number of labels in the blocks of several classes. -/
def labelCountAll (cs : List ClassDecl) : Nat := Routine.labelCountAll (cs.flatMap (·.methods))

/-- Number of blocks of several classes. -/
def blockCountAll (cs : List ClassDecl) : Nat := Routine.blockCountAll (cs.flatMap (·.methods))

@[simp] theorem labelCountAll_cons (c : ClassDecl) (cs : List ClassDecl) :
    labelCountAll (c :: cs) = c.labelCount + labelCountAll cs := by
  rw [labelCountAll, List.flatMap_cons, Routine.labelCountAll_append, labelCount, labelCountAll]

@[simp] theorem blockCountAll_cons (c : ClassDecl) (cs : List ClassDecl) :
    blockCountAll (c :: cs) = c.blockCount + blockCountAll cs := by
  rw [blockCountAll, List.flatMap_cons, Routine.blockCountAll_append, blockCount, blockCountAll]

/-- The code of a class, and its dispatch table. -/
def emit (memorySize : Nat) (n k : Nat) (tables : NameMap DispatchTable) (c : ClassDecl) :
    Except EmitError (DispatchTable × Fragment) := do
  let inherited ← c.inheritedTable tables
  let (table, blocks) ← emitMethods memorySize n k inherited c.methods
  return (table, ⟨table.emit, blocks⟩)

/-- The code of several classes, each with the tables of those before it. -/
def emitAll (memorySize : Nat) (n k : Nat) (tables : NameMap DispatchTable) :
    List ClassDecl → Except EmitError Fragment
  | [] => .ok .empty
  | c :: cs => do
    let (table, first) ← c.emit memorySize n k tables
    let rest ← emitAll memorySize (n + c.labelCount) (k + c.blockCount)
      (tables.insert c.name table) cs
    return first.append rest

end ClassDecl

/-- The code of a program for a machine with the given size of memory. -/
def Program.emit (memorySize : Nat) : Program → Except EmitError Listing
  | .body main => do
    let main ← main.emit memorySize 0
    return main ++ straight [.halt]
  | .letIn classes decls main => do
    let labels := ClassDecl.labelCountAll classes
    let blocks := ClassDecl.blockCountAll classes
    let tables ← ClassDecl.emitAll memorySize 0 0 .empty classes
    let locals ← Decl.emitAll memorySize labels blocks decls
    let main ← main.emit memorySize (labels + Decl.labelCountAll decls)
    return straight [.push 0] ++ tables.inline ++ locals.inline ++ main ++ straight [.halt] ++
      tables.hoisted ++ locals.hoisted

end ObjectLang
