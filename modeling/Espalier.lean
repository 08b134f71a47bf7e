import Espalier.Command.Disk
import Espalier.Main
import Espalier.Forest.Render
import Espalier.Proofs.Backtracking
import Espalier.Proofs.WellFormed
import Espalier.Proofs.Shares
import Espalier.Proofs.Query
import Espalier.Proofs.Plan
import Espalier.Proofs.Passes
import Espalier.Proofs.Binding
import Espalier.Proofs.Contested
import Espalier.Proofs.Keying
import Espalier.Proofs.Rebuild
import Espalier.Proofs.Occurrence
import Espalier.Proofs.Order
import Espalier.Proofs.Coupling
import Espalier.Proofs.Matching
import Espalier.Proofs.Deciding
import Espalier.Proofs.TreeShaped
import Espalier.Proofs.Equality
import Espalier.Proofs.Congruence
import Espalier.Proofs.Invariance
import Espalier.Proofs.Growth
import Espalier.Proofs.Reproduction
import Espalier.Proofs.Embedding
import Espalier.Proofs.FirstSite
import Espalier.Proofs.Solution
import Espalier.Proofs.Sight
import Espalier.Proofs.Transparency
import Espalier.Proofs.TotalOrder
import Espalier.Proofs.AppendOnly
import Espalier.Proofs.Replacement
import Espalier.Proofs.Caps
import Espalier.Proofs.GreenGrass
import Espalier.Proofs.Exhaustion
import Espalier.Proofs.Twins
import Espalier.Proofs.TwinSearch
import Espalier.Proofs.TwinRebuild
import Espalier.Proofs.TwinRuns
import Espalier.Proofs.NormalForms
import Espalier.Proofs.BuiltSchema
import Espalier.Proofs.Outcomes
import Espalier.Proofs.RoundTrip
import Espalier.Proofs.Compiling
import Espalier.Proofs.FailedRules
import Espalier.Proofs.Material
import Espalier.Proofs.Lexicographic
import Espalier.Proofs.Domain
import Espalier.Proofs.DefiningKinds
import Espalier.Proofs.Validation
import Espalier.Proofs.Overlay
import Espalier.Proofs.Assignments
import Espalier.Proofs.Cuts
import Espalier.Proofs.Planting
import Espalier.Proofs.FittingTrees
import Espalier.Proofs.Inheritance
import Espalier.Proofs.KindOrder
import Espalier.Proofs.Places
import Espalier.Proofs.Resolving
import Espalier.Proofs.Laying
import Espalier.Proofs.Sharing
import Espalier.Proofs.Cycles
import Espalier.Proofs.TreeData
import Espalier.Proofs.Drafting
import Espalier.Proofs.Decisions
import Espalier.Proofs.Elections
import Espalier.Proofs.Preorder
import Espalier.Proofs.DeepCopies
