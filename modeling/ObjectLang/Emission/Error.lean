import ObjectLang.Diagnostic

/-!
# Emission errors

Code can only be emitted for a tree that has been resolved.
-/

namespace ObjectLang

/-- Why no code could be emitted. -/
inductive EmitError where
  /-- A use of the name is not bound. -/
  | unbound (line : SourceLine) (name : String)
  /-- The method has no slot in the dispatch table. -/
  | noSlot (line : SourceLine) (method : String)
  /-- The superclass has no dispatch table. -/
  | missingTable (cls superclass : String)
deriving DecidableEq

/-- The wording of the error. -/
def EmitError.message : EmitError → String
  | unbound line name => "line " ++ Nat.repr line ++ ": '" ++ name ++ "' has no binding"
  | noSlot line method =>
    "line " ++ Nat.repr line ++ ": method '" ++ method ++ "' has no dispatch slot"
  | missingTable cls superclass =>
    "class '" ++ cls ++ "' extends '" ++ superclass ++ "', which has no dispatch table"

end ObjectLang
