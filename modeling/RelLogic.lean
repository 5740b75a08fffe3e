import RelLogic.Session.Basic
import RelLogic.Subst.Printer
import RelLogic.Proofs.Model
import RelLogic.Proofs.Solver
import RelLogic.Proofs.MostGeneral
import RelLogic.Proofs.Acyclic
import RelLogic.Proofs.Extension
import RelLogic.Proofs.Solvability
import RelLogic.Proofs.Branches
import RelLogic.Proofs.Enumeration
import RelLogic.Proofs.Meaning
import RelLogic.Proofs.Lift
import RelLogic.Proofs.Recursion
import RelLogic.Proofs.Binding
import RelLogic.Proofs.Invariant
import RelLogic.Proofs.WellFormed
import RelLogic.Proofs.Bare
import RelLogic.Proofs.Sharing
import RelLogic.Proofs.Resolution
import RelLogic.Proofs.Rearrangement
import RelLogic.Proofs.Region
import RelLogic.Proofs.NormalForm
import RelLogic.Proofs.Termination
import RelLogic.Proofs.Repetition
import RelLogic.Proofs.CommonItems
import RelLogic.Proofs.Chains
import RelLogic.Proofs.Algebra
import RelLogic.Proofs.Depth
import RelLogic.Proofs.Growth
import RelLogic.Proofs.Locality
import RelLogic.Proofs.ListEquations
import RelLogic.Proofs.SameTree
import RelLogic.Proofs.Trace
import RelLogic.Proofs.FiniteMap
import RelLogic.Proofs.Renaming
import RelLogic.Proofs.Shift
import RelLogic.Proofs.Equivariance
import RelLogic.Proofs.ProperList
import RelLogic.Proofs.ListNotation
import RelLogic.Proofs.Quoting
import RelLogic.Proofs.Formatting
import RelLogic.Proofs.WrittenForm
import RelLogic.Proofs.Occurrence
import RelLogic.Proofs.World
import RelLogic.Proofs.Operations
import RelLogic.Proofs.GoalOperations
import RelLogic.Proofs.Freshness
