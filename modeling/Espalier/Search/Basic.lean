import Espalier.Search.Plan

/-! # Search

An attempt goes through the patterns of a plan twice.  First, depth first along normal links, keyers
couple their targets; residual links, star runs and abnormal regions are set aside.  Then the star
runs are coupled, the residual links are held against the couplings, and each region is settled by a
search of its own.  `search` is the first choice of decisions under which an attempt succeeds.
-/

namespace Espalier

/-- A star run that waits for its coupling. -/
structure Pending (n : Nat) where
  scope : Nat
  link : LinkId
  target : Fin n
  key : Key

/-- The abnormal links of one pattern, with targets before `n`. -/
structure Region (n : Nat) where
  scope : Nat
  pattern : PatternId
  evaluator : Evaluator
  links : List (DecidedLink (Fin n))

/-- How far an attempt has come. -/
structure Progress (n : Nat) where
  couplings : Couplings
  residuals : List (PatternId × Key)
  pending : List (Pending n)
  regions : List (Region n)

namespace Progress

variable {n : Nat}

def start : Progress n := ⟨.empty, [], [], []⟩

def couple (pr : Progress n) (p : PatternId) (key : Key) : Attempt (Progress n) :=
  match pr.couplings.couple p key with
  | .ok couplings => pure { pr with couplings }
  | .error e => .fault e

def addResidual (pr : Progress n) (p : PatternId) (key : Key) : Progress n :=
  { pr with residuals := pr.residuals ++ [(p, key)] }

def addPending (pr : Progress n) (run : Pending n) : Progress n :=
  { pr with pending := pr.pending ++ [run] }

def addRegion (pr : Progress n) (region : Region n) : Progress n :=
  { pr with regions := pr.regions ++ [region] }

def recordPath (pr : Progress n) (p : PatternId) : Option (List Site) → Progress n
  | some path => { pr with couplings := pr.couplings.recordPath p path }
  | none => pr

end Progress

namespace Scene

variable {s : Schema}

/-- The first pass: couple `p` if `link` is its keyer, decide its links and follow the normal
ones. -/
def key (scene : Scene s) (plan : Plan) (root p : PatternId) (h : p ≤ root) (scope : Nat)
    (link : LinkId) (subject : Key) (pr : Progress root) : Attempt (Progress root) :=
  if (plan.scope scope).isKeyer link then do
    let pr ← pr.couple p subject
    let decided ← scene.decide p subject
    let pr := pr.recordPath p decided.path
    let pr ← decided.links.foldlM
      (fun pr l =>
        match l.kind with
        | .normal =>
          let next := ((plan.scope scope).disjunct? p l.slot).getD scope
          scene.key plan root l.target.val (Nat.le_trans (Nat.le_of_lt l.target.isLt) h) next
            (.child p l.slot) l.key pr
        | .multiplicity => pure (pr.addPending ⟨scope, .child p l.slot, l.target.castLE h, l.key⟩)
        | .abnormal => pure pr)
      pr
    let abnormal := decided.links.filter fun l => l.kind = .abnormal
    match decided.evaluator with
    | some evaluator =>
      if abnormal.isEmpty ∧ evaluator = .and then return pr
      else return pr.addRegion ⟨scope, p, evaluator, abnormal.map (·.map (·.castLE h))⟩
    | none => return pr
  else return pr.addResidual p subject
termination_by p
decreasing_by exact l.target.isLt

/-- Couple a star run whose link is the keyer of its star. -/
def keyRun {root : PatternId} (scene : Scene s) (plan : Plan) (pr : Progress root)
    (run : Pending root) : Attempt (Progress root) :=
  if (plan.scope run.scope).isKeyer run.link then do
    let pr ← pr.couple run.target.val run.key
    let decided ← scene.decide run.target.val run.key
    match decided.evaluator with
    | some evaluator =>
      let links := decided.links.map (·.map (·.castLE (Nat.le_of_lt run.target.isLt)))
      return pr.addRegion ⟨run.scope, run.target.val, evaluator, links⟩
    | none => return pr
  else return pr.addResidual run.target.val run.key

/-- Whether every abnormal link of a region has a match, where `inner` searches for patterns before
the root.  Links after the first one without a match are not looked at. -/
def allMatch {root : PatternId} (plan : Plan) (view : View)
    (inner : Fin root → Plan → Key → View → Except Fault (Option Couplings))
    (scope : Nat) (p : PatternId) : List (DecidedLink (Fin root)) → Except Fault Bool
  | [] => .ok true
  | l :: ls =>
    match (plan.scope scope).nested? p l.slot with
    | none => .error (.missingPlan p l.slot)
    | some nested =>
      match inner l.target nested l.key view with
      | .error e => .error e
      | .ok none => .ok false
      | .ok (some _) => allMatch plan view inner scope p ls

/-- Whether a region is satisfied. -/
def evaluate {root : PatternId} (plan : Plan) (view : View)
    (inner : Fin root → Plan → Key → View → Except Fault (Option Couplings))
    (region : Region root) : Except Fault Bool :=
  (allMatch plan view inner region.scope region.pattern region.links).map region.evaluator.combine

/-- The second pass. -/
def restrict {root : PatternId} (scene : Scene s) (plan : Plan) (master : View)
    (inner : Fin root → Plan → Key → View → Except Fault (Option Couplings))
    (pr : Progress root) : Attempt (Progress root) := do
  let pr ← pr.pending.foldlM (scene.keyRun plan) pr
  pr.residuals.forM fun (p, key) => .settled (master.restrict scene.forest pr.couplings p key)
  pr.regions.forM fun region =>
    match evaluate plan (pr.couplings :: master) inner region with
    | .error e => .fault e
    | .ok true => pure ()
    | .ok false => .mismatch .local
  return pr

/-- One attempt to match `root`. -/
def attempt (scene : Scene s) (plan : Plan) (root : PatternId) (subject : Key) (master : View)
    (inner : Fin root → Plan → Key → View → Except Fault (Option Couplings)) :
    Attempt Couplings := do
  let pr ← scene.key plan root root (Nat.le_refl root) 0 .root subject .start
  let pr ← scene.restrict plan master inner pr
  return pr.couplings

/-- The couplings of the first attempt that matches `root` against `subject`.  `master` holds the
couplings of the searches around this one. -/
def searchFor (scene : Scene s) (root : PatternId) (plan : Plan) (subject : Key) (master : View) :
    Except Fault (Option Couplings) :=
  Walk.solve <| scene.attempt plan root subject master fun q nested key view =>
    scene.searchFor q.val nested key view
termination_by root
decreasing_by exact q.isLt

/-- The search that a plan describes. -/
def search (scene : Scene s) (plan : Plan) (subject : Key) (master : View) :
    Except Fault (Option Couplings) :=
  scene.searchFor plan.root plan subject master

end Scene

end Espalier
