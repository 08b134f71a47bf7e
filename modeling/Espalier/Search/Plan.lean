import Espalier.Search.Query

/-! # Search plans

A plan depends on the patterns only.  Going breadth first along normal and multiplicity links it
elects for every pattern the first link to reach it as its keyer; any later link to the same pattern
is residual and only restricts.  Every disjunct of a match-any has a scope of its own, since only
one of them is taken and none may key for the others.  Behind every abnormal link lies a region with
a nested plan.
-/

namespace Espalier

/-- A link is named by the pattern that it leaves and its slot there. -/
inductive LinkId where
  | root
  | child (pattern : PatternId) (slot : Nat)
deriving DecidableEq, Repr

mutual

/-- The keyers of one search.  The first scope is the search itself, those after it are entered
through disjuncts. -/
inductive Plan where
  | mk (root : PatternId) (scopes : List Scope)

inductive Scope where
  | mk (keyers : List LinkId) (keyed : List PatternId)
    (disjuncts : List ((PatternId × Nat) × Nat)) (nested : List ((PatternId × Nat) × Plan))

end

namespace Scope

def empty : Scope := ⟨[], [], [], []⟩

def keyers : Scope → List LinkId
  | .mk keyers _ _ _ => keyers

/-- The patterns that are keyed once the scope has been gone through, those around it included. -/
def keyed : Scope → List PatternId
  | .mk _ keyed _ _ => keyed

def disjuncts : Scope → List ((PatternId × Nat) × Nat)
  | .mk _ _ disjuncts _ => disjuncts

def nested : Scope → List ((PatternId × Nat) × Plan)
  | .mk _ _ _ nested => nested

def isKeyer (scope : Scope) (link : LinkId) : Bool := scope.keyers.contains link

/-- The scope entered through the disjunct of `p` at `slot`. -/
def disjunct? (scope : Scope) (p : PatternId) (slot : Nat) : Option Nat :=
  scope.disjuncts.lookup (p, slot)

/-- The plan of the region behind the abnormal link of `p` at `slot`. -/
def nested? (scope : Scope) (p : PatternId) (slot : Nat) : Option Plan :=
  scope.nested.lookup (p, slot)

end Scope

namespace Plan

def root : Plan → PatternId
  | .mk root _ => root

def scopes : Plan → List Scope
  | .mk _ scopes => scopes

def scope (plan : Plan) (i : Nat) : Scope := plan.scopes[i]?.getD .empty

end Plan

/-- A link with a target known to come before `n`. -/
structure Outlink (n : Nat) where
  pattern : PatternId
  slot : Nat
  target : Fin n

/-- What an election has found.  Links that lead out of the scope have targets before `n`. -/
structure Election (n : Nat) where
  keyers : List LinkId
  keyed : List PatternId
  /-- The links of disjunctions. -/
  deferred : List (Outlink n)
  abnormal : List (Outlink n)

namespace Election

variable {s : Schema}

/-- Sort the links of a newly keyed pattern: those to be followed come back, the others are set
aside. -/
def sortLinks {n m : Nat} (disjunctive : Bool) (p : Fin (m + 1)) (h : m ≤ n) :
    List (Link (Fin p.val)) → Election n → Election n × List (LinkId × Fin m)
  | [], e => (e, [])
  | l :: ls, e =>
    let low : l.target.val < m := Nat.lt_of_lt_of_le l.target.isLt (Nat.le_of_lt_succ p.isLt)
    let out : Outlink n := ⟨p.val, l.slot, ⟨l.target.val, Nat.lt_of_lt_of_le low h⟩⟩
    if l.kind = .abnormal then
      sortLinks disjunctive p h ls { e with abnormal := e.abnormal ++ [out] }
    else if disjunctive then
      sortLinks disjunctive p h ls { e with deferred := e.deferred ++ [out] }
    else
      let (e, next) := sortLinks disjunctive p h ls e
      (e, (.child p.val l.slot, ⟨l.target.val, low⟩) :: next)

/-- Key the targets of one level that are not keyed yet; the links from them make up the next. -/
def level {n m : Nat} (ps : PatternSet s) (h : m ≤ n) :
    List (LinkId × Fin (m + 1)) → Election n → Election n × List (LinkId × Fin m)
  | [], e => (e, [])
  | (link, p) :: rest, e =>
    if p.val ∈ e.keyed then level ps h rest e
    else
      let e := { e with keyers := e.keyers ++ [link], keyed := e.keyed ++ [p.val] }
      let (e, next) :=
        sortLinks (ps.get p.val).agent.isDisjunction p h (ps.query p.val).links e
      let (e, more) := level ps h rest e
      (e, next ++ more)

/-- Elect keyers level by level.  Links lead to earlier patterns, so each level lies below the one
before it. -/
def levels {n : Nat} (ps : PatternSet s) : (m : Nat) → m ≤ n + 1 → List (LinkId × Fin m) →
    Election n → Election n
  | 0, _, _, e => e
  | m + 1, h, links, e =>
    let (e, next) := level ps (Nat.le_of_succ_le_succ h) links e
    levels ps m (Nat.le_of_succ_le h) next e

/-- Elect keyers from one link on, where the patterns of `keyed` are keyed already. -/
def run (ps : PatternSet s) (keyed : List PatternId) (link : LinkId) (seed : PatternId) :
    Election seed :=
  levels ps (seed + 1) (Nat.le_refl _) [(link, ⟨seed, Nat.lt_succ_self seed⟩)] ⟨[], keyed, [], []⟩

end Election

namespace Plan

variable {s : Schema}

/-- The scope entered by `link`, which has the index `index`, and after it the scopes of the
disjuncts met there. -/
def fill (ps : PatternSet s) (keyed : List PatternId) (link : LinkId) (seed : PatternId)
    (index : Nat) : List Scope :=
  let e := Election.run ps keyed link seed
  let (disjuncts, below) := e.deferred.foldl
    (fun (disjuncts, below) l =>
      let i := index + 1 + below.length
      (disjuncts ++ [((l.pattern, l.slot), i)],
        below ++ fill ps e.keyed (.child l.pattern l.slot) l.target.val i))
    (([] : List ((PatternId × Nat) × Nat)), ([] : List Scope))
  let nested := e.abnormal.map fun l =>
    ((l.pattern, l.slot), Plan.mk l.target.val (fill ps e.keyed .root l.target.val 0))
  .mk e.keyers e.keyed disjuncts nested :: below
termination_by seed
decreasing_by all_goals exact l.target.isLt

/-- The plan of a search for `root`, where the patterns of `master` are keyed by a search around it,
however often they are listed. -/
def make (ps : PatternSet s) (root : PatternId) (master : List PatternId) : Plan :=
  .mk root (fill ps master.eraseDups .root root 0)

end Plan

/-- The plan of a rule: its search, and a plan for every slave that its rebuild may come to. -/
inductive RulePlan where
  | mk (root : PatternId) (search : Plan) (slaves : List (PatternId × RulePlan))

namespace RulePlan

variable {s : Schema}

def root : RulePlan → PatternId
  | .mk root _ _ => root

def search : RulePlan → Plan
  | .mk _ search _ => search

def slaves : RulePlan → List (PatternId × RulePlan)
  | .mk _ _ slaves => slaves

def slave? (plan : RulePlan) (p : PatternId) : Option RulePlan := plan.slaves.lookup p

def make (ps : PatternSet s) (root : PatternId) (master : List PatternId) : RulePlan :=
  let search := Plan.make ps root master
  let slaves := (ps.rebuiltFrom root).attach.filterMap fun ⟨p, _⟩ =>
    match (ps.pattern p).agent with
    | .slave _ inner => some (p, make ps inner.val (search.scope 0).keyed)
    | _ => none
  .mk root search slaves
termination_by root
decreasing_by
  exact Nat.lt_of_lt_of_le inner.isLt (PatternSet.le_of_mem_rebuiltFrom (by assumption))

end RulePlan

end Espalier
