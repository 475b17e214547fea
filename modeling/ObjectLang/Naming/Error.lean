import ObjectLang.Diagnostic

/-!
# Naming errors

What can be wrong with the names of a program.
-/

namespace ObjectLang

/-- What a name is declared or used as. -/
inductive NameKind where
  | var
  | fn
  | param
  | cls
  | field
  | method
  | object
deriving DecidableEq

/-- The word for a kind of name. -/
def NameKind.text : NameKind → String
  | var => "variable"
  | fn => "function"
  | param => "parameter"
  | cls => "class"
  | field => "field"
  | method => "method"
  | object => "object"

/-- What is wrong with a name. -/
inductive NameFault where
  /-- The name is already declared in the same scope or class. -/
  | declaredTwice (kind : NameKind) (name : String)
  /-- No scope around the use declares the name. -/
  | unknownName (kind : NameKind) (name : String)
  /-- A type or a construction names a class that is not declared before it. -/
  | unknownClass (name : String)
  /-- A class extends one that is not declared before it. -/
  | unknownSuperclass (name : String)
  /-- The class of the receiver has no such method. -/
  | noSuchMethod (receiver method : String)
  /-- The receiver does not hold an object. -/
  | receiverNotObject (name : String)
  /-- A field has the name of an inherited method, or the other way round. -/
  | kindClash (kind : NameKind) (name cls : String)
deriving DecidableEq

/-- The wording of the fault. -/
def NameFault.message : NameFault → String
  | declaredTwice kind name => kind.text ++ " '" ++ name ++ "' already declared"
  | unknownName kind name => kind.text ++ " '" ++ name ++ "' not declared"
  | unknownClass name => "class '" ++ name ++ "' not declared"
  | unknownSuperclass name => "superclass '" ++ name ++ "' not declared"
  | noSuchMethod receiver method => "object '" ++ receiver ++ "' has no method '" ++ method ++ "'"
  | receiverNotObject name => "'" ++ name ++ "' is not an object"
  | kindClash kind name cls =>
    kind.text ++ " '" ++ name ++ "' in class '" ++ cls ++
      "' overrides an inherited member of another kind"

/-- The code of the fault. -/
def NameFault.code : NameFault → String
  | declaredTwice _ _ => "R001"
  | unknownName _ _ => "R002"
  | unknownClass _ => "R003"
  | unknownSuperclass _ => "R004"
  | noSuchMethod _ _ => "R005"
  | receiverNotObject _ => "R006"
  | kindClash _ _ _ => "R007"

/-- How the fault may be mended. -/
def NameFault.help : NameFault → Option String
  | declaredTwice _ _ => some "Names must be unique within one scope; the last declaration wins"
  | unknownName _ _ => some "Make sure the name is declared before use"
  | unknownClass _ => some "Classes must be declared before they are referenced"
  | unknownSuperclass _ => none
  | noSuchMethod _ _ => some "Check the method name against the receiver's class"
  | receiverNotObject _ => some "Only variables of class type have methods"
  | kindClash _ _ _ =>
    some "A field can only override a field and a method only a method"

/-- A fault and the line it is found at. -/
structure NameError where
  fault : NameFault
  line : SourceLine
deriving DecidableEq

/-- The wording of the error. -/
def NameError.message (e : NameError) : String :=
  e.fault.message ++ " at line " ++ Nat.repr e.line

/-- The error as a diagnostic. -/
def NameError.diagnostic (e : NameError) : Diagnostic where
  severity := .error
  message := e.fault.message
  line := e.line
  help := e.fault.help
  code := some e.fault.code

end ObjectLang
