import ObjectLang.Machine.Reader
import ObjectLang.NameMap

/-!
# Listings

A listing is a list of instructions.  `Listing.text` writes it, one instruction a line, and
`Listing.parse` reads it back.  A label stands for the number of operations before its definition
(`Listing.addresses`); `Listing.validate` checks that every label is defined exactly once, and
`Listing.assemble` replaces labels by their addresses.
-/

namespace ObjectLang

/-- Why a text or a listing is not machine code. -/
inductive ListingError where
  /-- A label is defined more than once. -/
  | labelDefinedTwice (name : Label)
  /-- A label is used and not defined. -/
  | labelNotDefined (name : Label)
  /-- The line, counted from one, is not an instruction. -/
  | unreadable (line : Nat) (cause : ReadError)
deriving DecidableEq

/-- The wording of the error. -/
def ListingError.message : ListingError → String
  | labelDefinedTwice name => "label '" ++ name ++ "' defined more than once"
  | labelNotDefined name => "label '" ++ name ++ "' is used but never defined"
  | unreadable line cause => "line " ++ Nat.repr line ++ ": " ++ cause.message

/-- Instructions in the order of their addresses. -/
abbrev Listing := List Instruction

namespace Listing

/-- One instruction a line, each line ended. -/
def text (code : Listing) : String :=
  String.join (code.map fun i => i.text ++ "\n")

/-- The instructions on the given lines, the first of which has number `n`; blank lines are
skipped. -/
def parseLines : Nat → List (List Char) → Except ListingError Listing
  | _, [] => .ok []
  | n, line :: rest =>
    let line := Text.trim line
    if line.isEmpty then parseLines (n + 1) rest
    else match Instruction.parseTrimmed line with
      | .error cause => .error (.unreadable n cause)
      | .ok i => (parseLines (n + 1) rest).map (i :: ·)

/-- Read a listing; the first line that is not an instruction is reported. -/
def parse (text : String) : Except ListingError Listing :=
  parseLines 1 (Text.lines text.toList)

/-- The operations, without the label definitions. -/
def ops (code : Listing) : List (Op Label) :=
  code.filterMap fun
    | .op o => some o
    | .label _ => none

/-- Enter the labels of `code` into `known`, where `address` operations come before `code`. -/
def addressesFrom (address : Nat) (known : NameMap Nat) :
    Listing → Except ListingError (NameMap Nat)
  | [] => .ok known
  | .op _ :: rest => addressesFrom (address + 1) known rest
  | .label name :: rest =>
    if known.contains name then .error (.labelDefinedTwice name)
    else addressesFrom address (known.insert name address) rest

/-- The address of every label: the number of operations before its definition. -/
def addresses (code : Listing) : Except ListingError (NameMap Nat) :=
  addressesFrom 0 .empty code

/-- Every label is defined at most once, and every label referred to is defined. -/
def validate (code : Listing) : Except ListingError Unit :=
  match code.addresses with
  | .error e => .error e
  | .ok known =>
    match (code.filterMap Instruction.target?).find? fun l => !known.contains l with
    | some l => .error (.labelNotDefined l)
    | none => .ok ()

/-- The address of a label. -/
def locate (known : NameMap Nat) (label : Label) : Except ListingError Nat :=
  match known.get? label with
  | some address => .ok address
  | none => .error (.labelNotDefined label)

/-- The operations, with addresses in the place of labels. -/
def assemble (code : Listing) : Except ListingError (List (Op Nat)) := do
  let known ← code.addresses
  code.ops.mapM fun op => op.mapTarget (locate known)

end Listing

end ObjectLang
