import Espalier.Search.Basic

/-! # Rebuilding a match

A pattern is rebuilt from what it is coupled to, or else from what its parent hands down to it.  A
standard pattern lays what it specifies over a copy of that node and copies the rest; without such a
node it makes a new one of the pattern alone.  All of it is new material; only on the way down to
the place of a match are the other children of the nodes above shared with the subject.
-/

namespace Espalier

/-- How often a rule may be applied in one run, and whether a run that reaches the cap fails. -/
structure Limits where
  maxRepetitions : Nat
  strict : Bool
deriving DecidableEq, Repr

/-- What a run has come to. -/
structure Applied where
  root : NodeId
  hits : Nat
deriving DecidableEq, Repr

/-- Failures of a run. -/
inductive RunError where
  | fault (e : Fault)
  | possiblyInfinite (rule : String) (repetitions : Nat)
  | schemaMismatch (rule : String)
deriving DecidableEq, Repr

def RunError.message : RunError → String
  | .fault e => e.message
  | .possiblyInfinite rule n =>
    s!"rule '{rule}' still matched after {n} repetitions (possibly infinite rewrite)"
  | .schemaMismatch rule =>
    s!"rule '{rule}' was built for a different schema than the subject forest"

namespace Grow

variable {s : Schema}

def fault {α : Type} (e : Fault) : Grow s RunError α := throw (.fault e)

/-- Let a failure to fit the schema be a fault of the run. -/
def orFault {α : Type} (x : Grow s SchemaError α) : Grow s RunError α :=
  x.adaptExcept fun e => .fault (.schema e)

/-- Copy what a key stands for. -/
def duplicateKey : Key → Grow s RunError Key
  | .node id => return .node (← duplicate id)
  | .run ordered items => return .run ordered (← items.mapM duplicate)

/-- The node that was built as `p`, where a single one is due. -/
def single (p : PatternId) : Key → Grow s RunError NodeId
  | .node id => return id
  | .run .. => fault (.nonFinal p)

/-- Search and rebuild until nothing is found or `left` rebuilds more are done. -/
def rounds (find : Forest s → NodeId → Except Fault (Option Couplings))
    (rebuild : Couplings → Grow s RunError NodeId) (rule : String) (strict : Bool) :
    (left hits : Nat) → NodeId → Grow s RunError Applied
  | left, hits, root => do
    match find (← get) root with
    | .error e => fault e
    | .ok none => return ⟨root, hits⟩
    | .ok (some couplings) =>
      match left with
      | 0 => if strict then throw (.possiblyInfinite rule hits) else return ⟨root, hits⟩
      | left + 1 => do
        let root ← rebuild couplings
        rounds find rebuild rule strict left (hits + 1) root

end Grow

/-- What a rebuild reads and never changes: the patterns, the name of the rule and its limits. -/
structure Workshop (s : Schema) where
  patterns : PatternSet s
  rule : String
  limits : Limits

/-- The items without repetitions, where the first of equal ones stays. -/
def keepFirst (items : List NodeId) : List NodeId :=
  items.foldl (fun kept x => if x ∈ kept then kept else kept ++ [x]) []

/-- Put `child` in the place of the last node of a path, under copies of the nodes above it. -/
def rebuildAlong {s : Schema} : List Site → NodeId → Grow s RunError NodeId
  | parent :: site :: path, child => do
    let below ← rebuildAlong (site :: path) child
    Grow.orFault (Grow.withChild parent.node site.member site.position below)
  | _, child => pure child

section Build

variable {s : Schema} {α : Type} (build : α → Option Key → Grow s RunError Key)
  (index : α → PatternId)

/-- Build a pattern into a single node. -/
def buildFinal (p : α) (base : Option Key) : Grow s RunError NodeId :=
  build p base >>= Grow.single (index p)

/-- Build the items of a container.  The elements that a star stands for take its place. -/
def buildItems (items : List α) : Grow s RunError (List NodeId) := do
  let built ← items.mapM fun p => build p none
  return built.flatMap Key.nodes

/-- Build a member of a pattern on its own. -/
def buildMember : Member α → Grow s RunError (Member NodeId)
  | .single none => return .single none
  | .single (some p) => return .single (some (← buildFinal build index p none))
  | .sequence items => return .sequence (← buildItems build items)
  | .collection items => return .collection (keepFirst (← buildItems build items))

/-- Lay a member of a pattern over one of a node.  What the pattern leaves open is copied. -/
def overlayMember (m : Member α) (kept : Member NodeId) : Grow s RunError (Member NodeId) :=
  match m, kept with
  | .single none, .single _ => kept.mapM Grow.duplicate
  | .single none, _ => pure kept
  | .sequence [], .single _ | .collection [], .single _ => pure kept
  | .sequence [], _ | .collection [], _ => kept.mapM Grow.duplicate
  | .single (some p), .single (some child) =>
    return .single (some (← buildFinal build index p (some (.node child))))
  | _, _ => buildMember build index m

/-- Lay the members of a pattern over those of a node.  Members that only the node has are
copied. -/
def overlayMembers (misfit : Fault) : List (Member α) → List (Member NodeId) →
    Grow s RunError (List (Member NodeId))
  | [], kept => kept.mapM (Member.mapM Grow.duplicate)
  | m :: ms, k :: kept => do
    let m ← overlayMember build index m k
    return m :: (← overlayMembers misfit ms kept)
  | m :: ms, [] =>
    if m.children.isEmpty then overlayMembers misfit ms []
    else do
      let _ ← buildMember build index m
      Grow.fault misfit

/-- Build a standard pattern.  It is laid over the node of its key, if that is of its kind. -/
def buildNode (p : PatternId) (kind : KindId) (value : Option Value) (members : List (Member α))
    (key : Option Key) : Grow s RunError Key := do
  let f ← get
  match (key.bind Key.node?).filter fun k => s.isSubkind (f.get k).kind kind with
  | some k => do
    let n := f.get k
    let members ← overlayMembers build index (.itemise p k) members n.members
    return .node (← Grow.orFault (Grow.insert
      { kind := n.kind, value := value.or n.value, members }))
  | none => do
    let members ← members.mapM (buildMember build index)
    return .node (← Grow.orFault (Grow.insert { kind, value, members }))

/-- Build a pattern that stands for a way down: its terminus at the bottom of the recorded path. -/
def buildBelow (p : PatternId) (terminus : α) (path? : Option (List Site)) :
    Option Key → Grow s RunError Key
  | some (.node top) =>
    match path?.filter fun path => path.head?.map (·.node) = some top with
    | none => Grow.fault (.terminusLost p)
    | some path => do
      let bottom ← buildFinal build index terminus none
      return .node (← rebuildAlong path bottom)
  | _ => Grow.fault (.unboundWildcard p)

/-- Build a star: a copy of the elements that it stands for. -/
def buildRun (p : PatternId) : Option Key → Grow s RunError Key
  | some (.run ordered items) => Grow.duplicateKey (.run ordered items)
  | _ => Grow.fault (.unboundWildcard p)

/-- Build a pattern that only searches: a copy of what it is coupled to. -/
def buildCopy (p : PatternId) : Option Key → Grow s RunError Key
  | some key => Grow.duplicateKey key
  | none => Grow.fault (.searchOnly p)

end Build

namespace Workshop

variable {s : Schema}

/-- Search below `root` and rebuild, round after round.  What is there now is old to all of them. -/
def rounds (shop : Workshop s) (search : Plan) (view : View)
    (rebuild : Couplings → Grow s RunError NodeId) (root : NodeId) : Grow s RunError Applied := do
  let watermark := (← get).size
  Grow.rounds (fun f x => Scene.search ⟨f, shop.patterns, watermark⟩ search (.node x) view) rebuild
    shop.rule shop.limits.strict shop.limits.maxRepetitions 0 root

/-- Run a slave over what was built for it, if there is a plan for it. -/
def buildSlave (shop : Workshop s) (view : View) (p : PatternId)
    (rebuild : RulePlan → Couplings → Grow s RunError NodeId) (built : NodeId) :
    Option RulePlan → Grow s RunError Key
  | none => Grow.fault (.missingPlan p 0)
  | some plan => return .node (← shop.rounds plan.search view (rebuild plan) built).root

/-- Build the pattern `p` from its coupling, or else from `base`.  `plan` has the plans of the
slaves that may be met. -/
def build (shop : Workshop s) (plan : RulePlan) (view : View) (p : PatternId) (base : Option Key) :
    Grow s RunError Key :=
  let pattern := shop.patterns.pattern p
  let key := (view.get? p).or base
  let inner (q : Fin p) (base : Option Key) : Grow s RunError Key :=
    shop.build plan view q.val base
  match pattern.agent with
  | .standard value members => buildNode inner Fin.val p pattern.kind value members key
  | .star _ => buildRun p key
  | .stuff terminus _ | .anyNode terminus =>
    buildBelow inner Fin.val p terminus (view.path? p) key
  | .overlay through above => inner above ((view.get? through.val).or key)
  | .greenGrass through => inner through key
  | .notMatch _ | .matchAll _ | .matchAny _ => buildCopy p key
  | .slave through root => do
    let built ← buildFinal inner Fin.val through key
    let rebuild (slavePlan : RulePlan) (couplings : Couplings) : Grow s RunError NodeId :=
      shop.build slavePlan (couplings :: view) root.val none >>= Grow.single root.val
    shop.buildSlave view p rebuild built (plan.slave? p)
termination_by p
decreasing_by all_goals first | exact q.isLt | exact root.isLt

/-- Search below `root` with the plan of a rule and rebuild, round after round. -/
def run (shop : Workshop s) (plan : RulePlan) (view : View) (root : NodeId) :
    Grow s RunError Applied :=
  shop.rounds plan.search view
    (fun couplings => buildFinal (shop.build plan (couplings :: view)) id plan.root none) root

end Workshop

end Espalier
