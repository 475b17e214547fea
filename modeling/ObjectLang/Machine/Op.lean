import ObjectLang.Text

/-!
# Operations of the stack machine

An `Op τ` is one operation, whose branch targets are of type `τ`: names in a listing, addresses in
assembled code.  Binary operations take the word below the top as their left operand.

An `Instruction` is what a listing consists of: an operation, or the definition of a label, which
marks the address of the operation after it.
-/

namespace ObjectLang

/-- Name of a position in a listing. -/
abbrev Label := String

/-- One operation of the machine, with branch targets in `τ`. -/
inductive Op (τ : Type) where
  /-- Push a word. -/
  | push (value : Int64)
  /-- Push the address of a target. -/
  | pushTarget (target : τ)
  /-- Drop the top. -/
  | pop
  | add
  | sub
  | mult
  | div
  /-- Pop two words, branch if they are equal. -/
  | beq (target : τ)
  /-- Pop two words, branch if the lower one is at most the top. -/
  | bleq (target : τ)
  /-- Branch. -/
  | b (target : τ)
  /-- Pop an address and jump to it, keeping the next address in `ra`. -/
  | js
  /-- Replace the address on top by the word stored there. -/
  | lw
  /-- Pop an address, then a word, and store the word there. -/
  | sw
  /-- Push `fp`. -/
  | lfp
  /-- Pop into `fp`. -/
  | sfp
  /-- Copy `sp` into `fp`. -/
  | cfp
  /-- Push `ra`. -/
  | lra
  /-- Pop into `ra`. -/
  | sra
  /-- Push `tm`. -/
  | ltm
  /-- Pop into `tm`. -/
  | stm
  /-- Push `hp`. -/
  | lhp
  /-- Pop into `hp`. -/
  | shp
  /-- Output the top, which stays. -/
  | print
  /-- Stop. -/
  | halt
deriving DecidableEq

namespace Op

variable {τ σ : Type}

/-- The word that names the operation in a listing. -/
def mnemonic : Op τ → String
  | push _ | pushTarget _ => "push"
  | pop => "pop"
  | add => "add"
  | sub => "sub"
  | mult => "mult"
  | div => "div"
  | beq _ => "beq"
  | bleq _ => "bleq"
  | b _ => "b"
  | js => "js"
  | lw => "lw"
  | sw => "sw"
  | lfp => "lfp"
  | sfp => "sfp"
  | cfp => "cfp"
  | lra => "lra"
  | sra => "sra"
  | ltm => "ltm"
  | stm => "stm"
  | lhp => "lhp"
  | shp => "shp"
  | print => "print"
  | halt => "halt"

/-- The operations that take no operand. -/
def plain : List (Op τ) :=
  [pop, add, sub, mult, div, js, lw, sw, lfp, sfp, cfp, lra, sra, ltm, stm, lhp, shp, print, halt]

/-- The target that the operation refers to. -/
def target? : Op τ → Option τ
  | pushTarget t | beq t | bleq t | b t => some t
  | _ => none

/-- Replace the target, where there is one, by a computed one. -/
def mapTarget {m : Type → Type} [Applicative m] (f : τ → m σ) : Op τ → m (Op σ)
  | push n => pure (push n)
  | pushTarget t => pushTarget <$> f t
  | pop => pure pop
  | add => pure add
  | sub => pure sub
  | mult => pure mult
  | div => pure div
  | beq t => beq <$> f t
  | bleq t => bleq <$> f t
  | b t => b <$> f t
  | js => pure js
  | lw => pure lw
  | sw => pure sw
  | lfp => pure lfp
  | sfp => pure sfp
  | cfp => pure cfp
  | lra => pure lra
  | sra => pure sra
  | ltm => pure ltm
  | stm => pure stm
  | lhp => pure lhp
  | shp => pure shp
  | print => pure print
  | halt => pure halt

/-- The operation as written in a listing. -/
def text (op : Op Label) : String :=
  match op with
  | push n => op.mnemonic ++ " " ++ Text.writeWord n
  | pushTarget l | beq l | bleq l | b l => op.mnemonic ++ " " ++ l
  | _ => op.mnemonic

end Op

/-- An element of a listing. -/
inductive Instruction where
  /-- An operation of the machine. -/
  | op (op : Op Label)
  /-- The definition of a label. -/
  | label (name : Label)
deriving DecidableEq

namespace Instruction

/-- The label that the instruction refers to. -/
def target? : Instruction → Option Label
  | op o => o.target?
  | label _ => none

/-- Does the instruction define a label? -/
def isLabel : Instruction → Bool
  | op _ => false
  | label _ => true

/-- The instruction as written in a listing. -/
def text : Instruction → String
  | op o => o.text
  | label name => name ++ ":"

end Instruction

end ObjectLang
