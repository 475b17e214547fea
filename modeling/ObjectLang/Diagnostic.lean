/-!
# Diagnostics

The form in which the faults of all passes reach the user: a message with the source line it is
about, and where they are known a code to look it up by and a hint.
-/

namespace ObjectLang

/-- A line of the source program. -/
abbrev SourceLine := Nat

/-- How serious a diagnostic is. -/
inductive Severity where
  | error
  | warning
  | info
deriving DecidableEq

/-- The word for a severity. -/
def Severity.text : Severity → String
  | error => "error"
  | warning => "warning"
  | info => "info"

/-- A message for the user. -/
structure Diagnostic where
  severity : Severity
  message : String
  /-- The source line it is about. -/
  line : SourceLine
  /-- How the fault may be mended. -/
  help : Option String
  /-- The code of the kind of fault. -/
  code : Option String
deriving DecidableEq

/-- The diagnostic as shown: severity, line and message, the code in brackets, and the hint on a
line of its own. -/
def Diagnostic.text (d : Diagnostic) : String :=
  d.severity.text ++ " at line " ++ Nat.repr d.line ++ ": " ++ d.message ++
    (match d.code with
      | none => ""
      | some code => " [" ++ code ++ "]") ++
    match d.help with
      | none => ""
      | some help => "\nhelp: " ++ help

end ObjectLang
