import MatrixCalc.Main
import MatrixCalc.Token.Chain
import MatrixCalc.Proofs.Growth
import MatrixCalc.Proofs.Compilation
import MatrixCalc.Proofs.Effect
import MatrixCalc.Proofs.Linear
import MatrixCalc.Proofs.Conservation
import MatrixCalc.Proofs.SingleAssignment
import MatrixCalc.Proofs.Reachable
import MatrixCalc.Proofs.Dataflow
import MatrixCalc.Proofs.Expression.Basic
import MatrixCalc.Proofs.Renaming
import MatrixCalc.Proofs.Expression.Reduction
import MatrixCalc.Proofs.Expression.Tiers
import MatrixCalc.Proofs.Expression.Groups
import MatrixCalc.Proofs.Expression.Reading
import MatrixCalc.Proofs.Expression.Compiled
import MatrixCalc.Proofs.Recompilation.Lockstep
import MatrixCalc.Proofs.Recompilation.Parts
import MatrixCalc.Proofs.Private
import MatrixCalc.Proofs.Recompilation.Whole
import MatrixCalc.Proofs.Recompilation.Performed
import MatrixCalc.Proofs.Recompilation.Later
import MatrixCalc.Proofs.Framed
import MatrixCalc.Proofs.Chain.Links
import MatrixCalc.Proofs.Chain.Edits
import MatrixCalc.Proofs.Chain.Script
import MatrixCalc.Proofs.Hidden
import MatrixCalc.Proofs.Isolation
import MatrixCalc.Proofs.Invocation.Calls
import MatrixCalc.Proofs.Brackets.Discipline
import MatrixCalc.Proofs.Separation
import MatrixCalc.Proofs.Requests
import MatrixCalc.Proofs.Results
import MatrixCalc.Proofs.Literals.Checked
import MatrixCalc.Proofs.Literals.Performed
import MatrixCalc.Proofs.Documents.Rounding
import MatrixCalc.Proofs.Documents.Shortest
import MatrixCalc.Proofs.Documents.Numerals
import MatrixCalc.Proofs.Documents.Words
import MatrixCalc.Proofs.Documents.Reading
import MatrixCalc.Proofs.Documents.Reloading
import MatrixCalc.Proofs.Expression.Numerals
import MatrixCalc.Proofs.Expression.Layouts
import MatrixCalc.Proofs.Expression.Occurrences
import MatrixCalc.Proofs.Expression.Operands
import MatrixCalc.Proofs.Expression.Assigned
import MatrixCalc.Proofs.Expression.Signs
import MatrixCalc.Proofs.Ranges
import MatrixCalc.Proofs.Enumeration
import MatrixCalc.Proofs.Submatrix
import MatrixCalc.Proofs.Literals.Layout
import MatrixCalc.Proofs.Literals.Refused
import MatrixCalc.Proofs.Invocation.Residue
import MatrixCalc.Proofs.Expression.Integers
import MatrixCalc.Proofs.SideBySide
import MatrixCalc.Proofs.Counting
import MatrixCalc.Proofs.Expression.Reports
import MatrixCalc.Proofs.Depth.Limit
import MatrixCalc.Proofs.Declarations
import MatrixCalc.Proofs.Chain.Splitting
import MatrixCalc.Proofs.Rows
import MatrixCalc.Proofs.Chain.Expansion
import MatrixCalc.Proofs.Invocation.Reached
import MatrixCalc.Proofs.Guarded
import MatrixCalc.Proofs.Chain.Resolution
