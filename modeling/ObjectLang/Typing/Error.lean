import ObjectLang.Diagnostic
import ObjectLang.Ty.Basic

/-!
# Type errors

What can be wrong with the types of a program.
-/

namespace ObjectLang

/-- What is wrong with a type. -/
inductive TypeFault where
  /-- An operand of an arithmetic operator is not a number. -/
  | operandsNotInt (op : String) (left right : Ty)
  /-- Neither operand's type is a subtype of the other's. -/
  | operandsUnrelated (op : String) (left right : Ty)
  /-- The operand of a negation is not a number. -/
  | negatedNotInt (found : Ty)
  | testNotBool (found : Ty)
  /-- Neither branch's type is a subtype of the other's. -/
  | branchesUnrelated (yes no : Ty)
  /-- The initial value of a variable is not of its type. -/
  | initNotOfType (name : String) (expected found : Ty)
  /-- The body of a routine is not of its result type. -/
  | bodyNotOfType (name : String) (expected found : Ty)
  /-- What is called is neither function nor method. -/
  | calledNonFunction (name : String) (found : Ty)
  | argCount (name : String) (expected found : Nat)
  /-- The argument, counted from one, is not of its parameter's type. -/
  | argNotOfType (name : String) (position : Nat) (expected found : Ty)
  /-- A function is named and not called. -/
  | bareFunction (name : String)
  /-- A class is named where a value is expected. -/
  | bareClass (name : String)
  /-- What is constructed is not a class. -/
  | newOfNonClass (name : String)
  /-- The field, counted from zero, is not of a subtype of the inherited one. -/
  | fieldNotSubtype (cls : String) (index : Nat) (expected found : Ty)
  /-- The method, counted from zero, is not of a subtype of the inherited one. -/
  | methodNotSubtype (cls : String) (index : Nat) (expected found : Ty)
deriving DecidableEq

namespace TypeFault

/-- The wording of the fault. -/
def message : TypeFault → String
  | operandsNotInt op left right =>
    "Non integers in '" ++ op ++ "': found " ++ left.text ++ " and " ++ right.text
  | operandsUnrelated op left right =>
    "Incompatible types in '" ++ op ++ "': " ++ left.text ++ " and " ++ right.text
  | negatedNotInt found => "Incompatible type in '!': found " ++ found.text
  | testNotBool found => "Non boolean condition in if: found " ++ found.text
  | branchesUnrelated yes no =>
    "Incompatible types in then-else branches: " ++ yes.text ++ " and " ++ no.text
  | initNotOfType name expected found =>
    "Incompatible value for variable '" ++ name ++ "': expected " ++ expected.text ++
      ", found " ++ found.text
  | bodyNotOfType name expected found =>
    "Wrong return type for '" ++ name ++ "': expected " ++ expected.text ++
      ", found " ++ found.text
  | calledNonFunction name found =>
    "Invocation of a non-function '" ++ name ++ "' of type " ++ found.text
  | argCount name expected found =>
    "Wrong number of arguments in the invocation of '" ++ name ++ "': expected " ++
      Nat.repr expected ++ ", found " ++ Nat.repr found
  | argNotOfType name position expected found =>
    "Wrong type for argument " ++ Nat.repr position ++ " in the invocation of '" ++ name ++
      "': expected " ++ expected.text ++ ", found " ++ found.text
  | bareFunction name => "Wrong usage of function identifier '" ++ name ++ "'"
  | bareClass name => "Wrong usage of class identifier '" ++ name ++ "'"
  | newOfNonClass name => "'" ++ name ++ "' is not a class"
  | fieldNotSubtype cls index expected found =>
    "Field " ++ Nat.repr index ++ " of class '" ++ cls ++ "' has type " ++ found.text ++
      ", not a subtype of inherited " ++ expected.text
  | methodNotSubtype cls index expected found =>
    "Method " ++ Nat.repr index ++ " of class '" ++ cls ++ "' has type " ++ found.text ++
      ", not a subtype of inherited " ++ expected.text

/-- The code of the fault. -/
def code : TypeFault → String
  | operandsNotInt _ _ _ => "T001"
  | operandsUnrelated _ _ _ => "T002"
  | negatedNotInt _ => "T003"
  | testNotBool _ => "T004"
  | branchesUnrelated _ _ => "T005"
  | initNotOfType _ _ _ => "T006"
  | bodyNotOfType _ _ _ => "T007"
  | calledNonFunction _ _ => "T008"
  | argCount _ _ _ => "T009"
  | argNotOfType _ _ _ _ => "T010"
  | bareFunction _ => "T011"
  | bareClass _ => "T012"
  | newOfNonClass _ => "T013"
  | fieldNotSubtype _ _ _ _ => "T014"
  | methodNotSubtype _ _ _ _ => "T015"

/-- How the fault may be mended. -/
def help : TypeFault → Option String
  | operandsNotInt _ _ _ => some "Arithmetic needs int (or bool) operands"
  | operandsUnrelated _ _ _ => some "One operand's type must be a subtype of the other's"
  | branchesUnrelated _ _ => some "One branch's type must be a subtype of the other's"
  | calledNonFunction _ _ => some "Only functions and methods can be called"
  | argCount _ _ _ => some "Check the number of arguments in the call"
  | bareFunction _ => some "Functions can only be called, not used as values"
  | bareClass _ => some "Use 'new' to create an object"
  | fieldNotSubtype _ _ _ _ => some "An overriding field must keep a subtype of the inherited type"
  | methodNotSubtype _ _ _ _ =>
    some ("An overriding method must accept at least the inherited parameters " ++
      "and return a subtype")
  | negatedNotInt _ | testNotBool _ | initNotOfType _ _ _
  | bodyNotOfType _ _ _ | argNotOfType _ _ _ _ | newOfNonClass _ => none

end TypeFault

/-- A fault and the line it is found at. -/
structure TypeError where
  fault : TypeFault
  line : SourceLine
deriving DecidableEq

/-- The wording of the error. -/
def TypeError.message (e : TypeError) : String :=
  e.fault.message ++ " at line " ++ Nat.repr e.line

/-- The error as a diagnostic. -/
def TypeError.diagnostic (e : TypeError) : Diagnostic where
  severity := .error
  message := e.fault.message
  line := e.line
  help := e.fault.help
  code := some e.fault.code

end ObjectLang
