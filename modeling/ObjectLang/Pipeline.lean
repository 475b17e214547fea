import ObjectLang.Emission.Program
import ObjectLang.Machine.Run
import ObjectLang.Naming.Program
import ObjectLang.Typing.Program

/-!
# From programs to results

`Program.compile` resolves the names of a program, checks its types and emits its code; each step
is taken only if the one before it found nothing wrong.  `Compiled.run` runs the code.
-/

namespace ObjectLang

/-- How code is emitted and run.  The class directory lies at the end of memory, so both have to
agree on its size. -/
structure Options where
  /-- Size of the memory that code is emitted for. -/
  emittedFor : Nat
  machine : Machine.Options
deriving DecidableEq

namespace Options

/-- The options for a machine with the given size of memory. -/
def ofMemorySize (memorySize : Nat) : Options := ⟨memorySize, { memorySize }⟩

/-- The options for a machine of the usual size. -/
def standard : Options := ofMemorySize ({} : Machine.Options).memorySize

end Options

/-- Why a program was not compiled. -/
inductive Failure where
  | naming (errors : List NameError)
  | typing (errors : List TypeError)
  | emission (error : EmitError)
deriving DecidableEq

namespace Failure

/-- The wording of the failure. -/
def message : Failure → String
  | naming errors => "Resolution failed with " ++ Nat.repr errors.length ++ " error(s)"
  | typing errors => "Type checking failed with " ++ Nat.repr errors.length ++ " error(s)"
  | emission error => "Code generation error: " ++ error.message

/-- One diagnostic for each error in the program. -/
def diagnostics : Failure → List Diagnostic
  | naming errors => errors.map NameError.diagnostic
  | typing errors => errors.map TypeError.diagnostic
  | emission _ => []

end Failure

/-- A program that passed all checks. -/
structure Compiled where
  /-- The type of the program, if it could be determined. -/
  ty : Option Ty
  code : Listing
  options : Options

/-- Run the code of a program. -/
def Compiled.run (c : Compiled) : Except Fault Machine.Execution :=
  Machine.run c.options.machine c.code

/-- Compile a program. -/
def Program.compile (options : Options) (p : Program) : Except Failure Compiled :=
  match p.nameErrors with
  | [] =>
    match p.bind.check with
    | .error errors => .error (.typing errors)
    | .ok ty =>
      match p.bind.emit options.emittedFor with
      | .error e => .error (.emission e)
      | .ok code => .ok ⟨ty, code, options⟩
  | errors => .error (.naming errors)

end ObjectLang
