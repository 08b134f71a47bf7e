import Espalier.Forest.Occurrence
import Espalier.Forest.Order
import Espalier.Search.Fault

/-! # Couplings

A coupling says what a pattern was bound to.  In one attempt each pattern is bound once; whatever
else it meets has to be equal to that.
-/

namespace Espalier

/-- What a pattern is coupled to: a node, or for a star the elements that it stands for. -/
inductive Key where
  | node (id : NodeId)
  | run (ordered : Bool) (items : List NodeId)
deriving DecidableEq, Repr

namespace Key

def node? : Key → Option NodeId
  | .node id => some id
  | .run .. => none

/-- The nodes that a key stands for. -/
def nodes : Key → List NodeId
  | .node id => [id]
  | .run _ items => items

@[simp] theorem nodes_node (id : NodeId) : (Key.node id).nodes = [id] := rfl

@[simp] theorem nodes_run (ordered : Bool) (items : List NodeId) :
    (Key.run ordered items).nodes = items := rfl

/-- The structural order of keys.  Nodes come before runs and unordered runs before ordered ones. -/
def compare {s : Schema} (f : Forest s) : Key → Key → Ordering
  | .node a, .node b => f.compare a b
  | .run o xs, .run o' ys => (Ord.compare o o').then (f.compareRuns o xs ys)
  | .node _, .run .. => .lt
  | .run .., .node _ => .gt

end Key

/-- The couplings of one attempt. -/
structure Couplings where
  keys : List (PatternId × Key)
  /-- For a pattern that stands for a way down the subject, the sites on that way. -/
  paths : List (PatternId × List Site)
deriving DecidableEq, Repr

namespace Couplings

def empty : Couplings := ⟨[], []⟩

def get? (c : Couplings) (p : PatternId) : Option Key := c.keys.lookup p

def path? (c : Couplings) (p : PatternId) : Option (List Site) := c.paths.lookup p

def size (c : Couplings) : Nat := c.keys.length

def couple (c : Couplings) (p : PatternId) (key : Key) : Except Fault Couplings :=
  if (c.get? p).isSome then .error (.keyedTwice p) else .ok { c with keys := (p, key) :: c.keys }

def recordPath (c : Couplings) (p : PatternId) (path : List Site) : Couplings :=
  { c with paths := (p, path) :: c.paths }

end Couplings

/-- The couplings of the searches around the current one, innermost first. -/
abbrev View := List Couplings

namespace View

def get? (v : View) (p : PatternId) : Option Key := v.findSome? (·.get? p)

def path? (v : View) (p : PatternId) : Option (List Site) := v.findSome? (·.path? p)

/-- Hold `key` against what `p` is coupled to, in `c` or around it. -/
def restrict {s : Schema} (v : View) (f : Forest s) (c : Couplings) (p : PatternId) (key : Key) :
    Except Halt Unit :=
  match (c.get? p).or (v.get? p) with
  | none => .error (.fault (.unboundResidual p))
  | some bound =>
    if bound.compare f key = .eq then .ok () else .error (.mismatch .coupling)

end View

end Espalier
