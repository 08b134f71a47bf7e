import Espalier.Pattern.Basic

/-! # How a search or a rebuild fails -/

namespace Espalier

/-- Why an attempt to match failed; another choice may do better. -/
inductive Mismatch where
  /-- The kind, the value or the shape of a node is wrong. -/
  | local
  /-- A pattern met a subtree unequal to the one it is coupled to. -/
  | coupling
  /-- A container has the wrong number of elements. -/
  | size
deriving DecidableEq, Repr

/-- A choice among the numbers from `start` up to, and without, `stop`. -/
structure Offer where
  start : Nat
  stop : Nat
deriving DecidableEq, Repr

/-- Failures that end a run. -/
inductive Fault where
  | keyedTwice (pattern : PatternId)
  | decisionReshaped (index : Nat) (recorded offered : Offer)
  | unboundResidual (pattern : PatternId)
  | nonFinal (pattern : PatternId)
  | unboundWildcard (pattern : PatternId)
  | searchOnly (pattern : PatternId)
  | itemise (pattern : PatternId) (node : NodeId)
  | keyShape (pattern : PatternId)
  | missingPlan (pattern : PatternId) (slot : Nat)
  | terminusLost (pattern : PatternId)
  | schema (e : SchemaError)
deriving DecidableEq, Repr

def Fault.message : Fault → String
  | .keyedTwice p => s!"pattern node @{p} was keyed twice in one attempt"
  | .decisionReshaped index recorded offered =>
    s!"decision {index} changed shape on replay: recorded {recorded.start}..{recorded.stop}, " ++
      s!"offered {offered.start}..{offered.stop}"
  | .unboundResidual p => s!"residual link reached @{p} before it was keyed"
  | .nonFinal p => s!"@{p} rebuilt into a run of nodes where a single node is required"
  | .unboundWildcard p => s!"wildcard @{p} has no coupling to rebuild from"
  | .searchOnly p => s!"search-only pattern @{p} has no coupling to rebuild from"
  | .itemise p node => s!"subject #{node} cannot be itemised as the kind of @{p}"
  | .keyShape p => s!"@{p} was offered a run where a node is required, or the reverse"
  | .missingPlan p slot => s!"no plan for link {slot} of @{p}"
  | .terminusLost p => s!"terminus of @{p} is not below the node it was coupled to"
  | .schema e => e.message

/-- Why an attempt ended without a match. -/
inductive Halt where
  | mismatch (m : Mismatch)
  | fault (e : Fault)
deriving DecidableEq, Repr

end Espalier
