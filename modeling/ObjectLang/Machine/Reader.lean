import ObjectLang.Machine.Op

/-!
# Reading instructions

An instruction is written on a line of its own, with blanks around and between its words: a label
definition is a name followed by a colon, an operation its mnemonic and, for `push` and the
branches, one operand.  `Instruction.parse` reads such a line, and says what is wrong with any
other.
-/

namespace ObjectLang

/-- Why a line is not an instruction. -/
inductive ReadError where
  /-- The first word is no mnemonic. -/
  | unknownMnemonic (word : String)
  /-- The mnemonic needs an operand. -/
  | operandMissing (mnemonic : String)
  /-- A word too many. -/
  | extraWord (mnemonic word : String)
  /-- The text in the place of a label is not a name. -/
  | badLabel (text : String)
deriving DecidableEq

/-- The wording of the error. -/
def ReadError.message : ReadError → String
  | unknownMnemonic word => "unknown instruction '" ++ word ++ "'"
  | operandMissing mnemonic => "'" ++ mnemonic ++ "' expects an operand"
  | extraWord mnemonic word => "unexpected operand '" ++ word ++ "' after '" ++ mnemonic ++ "'"
  | badLabel text => "invalid label '" ++ text ++ "'"

/-- A label name is a letter or underscore followed by letters, digits and underscores, all of
them ASCII. -/
def isName : List Char → Bool
  | [] => false
  | c :: cs => (c.isAlpha || c == '_') && cs.all fun c => c.isAlphanum || c == '_'

/-- A word in the place of a label. -/
def readLabel (word : List Char) : Except ReadError Label :=
  if isName word then .ok (String.ofList word) else .error (.badLabel (String.ofList word))

namespace Op

/-- The operation without operands of the given name. -/
def ofMnemonic? (mnemonic : String) : Option (Op Label) :=
  plain.find? fun op => op.mnemonic == mnemonic

/-- The branch of the given name. -/
def branch? (mnemonic : String) : Option (Label → Op Label) :=
  [beq, bleq, b].find? fun op => (op "").mnemonic == mnemonic

/-- The operand of `push` is a decimal word or else a label. -/
def readPush (operand : List Char) : Except ReadError (Op Label) :=
  match Text.readWord? operand with
  | some n => .ok (push n)
  | none => (readLabel operand).map pushTarget

/-- The operation with the given mnemonic and operand. -/
def read (mnemonic : String) (operand? : Option (List Char)) : Except ReadError (Op Label) :=
  if mnemonic = "push" then
    match operand? with
    | none => .error (.operandMissing mnemonic)
    | some operand => readPush operand
  else match branch? mnemonic with
    | some branch =>
      match operand? with
      | none => .error (.operandMissing mnemonic)
      | some operand => (readLabel operand).map branch
    | none =>
      match ofMnemonic? mnemonic, operand? with
      | none, _ => .error (.unknownMnemonic mnemonic)
      | some op, none => .ok op
      | some _, some operand => .error (.extraWord mnemonic (String.ofList operand))

end Op

/-- The instruction on a line without blanks at its ends: a label definition if it ends in a
colon, and otherwise at most two words. -/
def Instruction.parseTrimmed (line : List Char) : Except ReadError Instruction :=
  if line.getLast? = some ':' then
    (readLabel line.dropLast).map .label
  else match Text.words line with
    | [] => .error (.unknownMnemonic "")
    | [mnemonic] => (Op.read (String.ofList mnemonic) none).map .op
    | [mnemonic, operand] => (Op.read (String.ofList mnemonic) (some operand)).map .op
    | mnemonic :: _ :: word :: _ =>
      .error (.extraWord (String.ofList mnemonic) (String.ofList word))

/-- The instruction on a line. -/
def Instruction.parse (line : String) : Except ReadError Instruction :=
  Instruction.parseTrimmed (Text.trim line.toList)

end ObjectLang
