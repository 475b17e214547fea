import ObjectLang.Diagnostic
import ObjectLang.NameMap
import ObjectLang.Ty.Basic
import ObjectLang.Ty.Hierarchy
import ObjectLang.Ty.Subtype
import ObjectLang.Tree.Basic
import ObjectLang.Tree.Notes
import ObjectLang.Scope
import ObjectLang.Layout
import ObjectLang.Naming.Error
import ObjectLang.Naming.Env
import ObjectLang.Naming.Use
import ObjectLang.Naming.Decl
import ObjectLang.Naming.Class
import ObjectLang.Naming.Program
import ObjectLang.Typing.Error
import ObjectLang.Typing.Expr
import ObjectLang.Typing.Program
import ObjectLang.Text
import ObjectLang.Machine.Op
import ObjectLang.Machine.Reader
import ObjectLang.Machine.Listing
import ObjectLang.Machine.State
import ObjectLang.Machine.Run
import ObjectLang.Emission.Error
import ObjectLang.Emission.Expr
import ObjectLang.Emission.Block
import ObjectLang.Emission.Program
import ObjectLang.Pipeline
import ObjectLang.Proofs.Code.Outline
import ObjectLang.Proofs.Code.Placement
import ObjectLang.Proofs.Code.Segments
import ObjectLang.Proofs.Machine.Refinement
import ObjectLang.Proofs.Code.Assembly
import ObjectLang.Proofs.Code.Labels
import ObjectLang.Proofs.Annotations
import ObjectLang.Proofs.Machine.Frames
import ObjectLang.Proofs.Reference
import ObjectLang.Proofs.Simulation.World
import ObjectLang.Proofs.Simulation.State
import ObjectLang.Proofs.Simulation.Operators
import ObjectLang.Proofs.Simulation.Calls
import ObjectLang.Proofs.Simulation.Objects
import ObjectLang.Proofs.Simulation.Routines
import ObjectLang.Proofs.Inheritance
import ObjectLang.Proofs.Stages
import ObjectLang.Proofs.Tables
import ObjectLang.Proofs.Simulation.Classes
import ObjectLang.Proofs.Simulation.Program
import ObjectLang.Proofs.Execution
import ObjectLang.Proofs.Safety
import ObjectLang.Proofs.Preservation
import ObjectLang.Proofs.Dispatch
import ObjectLang.Proofs.Heap
import ObjectLang.Proofs.Lexical
import ObjectLang.Proofs.WellScoped
import ObjectLang.Proofs.Emittable
import ObjectLang.Proofs.Classes
import ObjectLang.Proofs.Subtyping
import ObjectLang.Proofs.Substitution
import ObjectLang.Proofs.Access
import ObjectLang.Proofs.Code.Blocks
import ObjectLang.Proofs.Slots
import ObjectLang.Proofs.RoundTrip
import ObjectLang.Proofs.WellFormed
import ObjectLang.Proofs.Erasure
import ObjectLang.Proofs.Recompilation
import ObjectLang.Proofs.Code.Heights
import ObjectLang.Proofs.Code.Rising
import ObjectLang.Proofs.FrameSlots
import ObjectLang.Proofs.Booleans
import ObjectLang.Proofs.Acyclic
import ObjectLang.Proofs.Holes
import ObjectLang.Proofs.Resolution
import ObjectLang.Proofs.Sessions
import ObjectLang.Proofs.Comparisons
import ObjectLang.Proofs.Machine.Recorded
import ObjectLang.Proofs.Machine.Bounds
import ObjectLang.Proofs.Code.Places
import ObjectLang.Proofs.Machine.Stepping
import ObjectLang.Proofs.ShortCircuit
import ObjectLang.Proofs.Machine.Partition
import ObjectLang.Proofs.Construction
import ObjectLang.Proofs.Members
import ObjectLang.Proofs.Recovery
import ObjectLang.Proofs.Reachability
import ObjectLang.Proofs.Validation
import ObjectLang.Proofs.Grammar
import ObjectLang.Proofs.Returns
