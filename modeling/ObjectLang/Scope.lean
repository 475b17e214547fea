import ObjectLang.NameMap
import ObjectLang.Tree.Basic

/-!
# Scopes

A scope holds the names declared at one nesting level.  Scopes are stacked, the innermost one
first; a name is looked up from the innermost scope outward and declared in the innermost one, or
in the outermost one if it is global.
-/

namespace ObjectLang

/-- The names declared at one nesting level. -/
abbrev Scope := NameMap Entry

/-- Why a stack of scopes could not be used. -/
inductive ScopeError where
  /-- There is no scope. -/
  | emptyStack
deriving DecidableEq

/-- The wording of the error. -/
def ScopeError.message : ScopeError → String
  | emptyStack => "Cannot use an empty scope stack"

/-- Nested scopes, the innermost first. -/
structure ScopeStack where
  scopes : List Scope

namespace ScopeStack

/-- No scope at all. -/
def empty : ScopeStack := ⟨[]⟩

variable (s : ScopeStack)

/-- Open an innermost scope. -/
def push (scope : Scope) : ScopeStack := ⟨scope :: s.scopes⟩

/-- Close the innermost scope. -/
def pop : Except ScopeError (Scope × ScopeStack) :=
  match s.scopes with
  | [] => .error .emptyStack
  | scope :: outer => .ok (scope, ⟨outer⟩)

/-- Number of scopes. -/
def depth : Nat := s.scopes.length

/-- Close all scopes but the `n` outermost ones. -/
def keepOutermost (n : Nat) : ScopeStack := ⟨s.scopes.drop (s.depth - n)⟩

/-- Nesting level of the innermost scope. -/
def level : Nat := s.depth - 1

/-- The entry of a name in the innermost scope that declares it. -/
def lookup (name : String) : Option Entry := s.scopes.findSome? (·.get? name)

/-- The entry of a name in the outermost scope. -/
def findOutermost? (name : String) : Option Entry := s.scopes.getLast?.bind (·.get? name)

/-- The entry of a name in the innermost scope. -/
def findInnermost? (name : String) : Option Entry := s.scopes.head?.bind (·.get? name)

/-- Declare a name in the innermost scope. -/
def declare (name : String) (entry : Entry) : Except ScopeError ScopeStack :=
  match s.scopes with
  | [] => .error .emptyStack
  | scope :: outer => .ok ⟨scope.insert name entry :: outer⟩

/-- Declare a name in the outermost scope. -/
def declareOutermost (name : String) (entry : Entry) : Except ScopeError ScopeStack :=
  match s.scopes.reverse with
  | [] => .error .emptyStack
  | scope :: inner => .ok ⟨(scope.insert name entry :: inner).reverse⟩

end ScopeStack

end ObjectLang
