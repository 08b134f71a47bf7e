import Espalier.Search.Conjecture
import Espalier.Search.Coupling

/-! # Links and decisions of a pattern

The query of a pattern is what can be said of it without a subject: its links to other patterns, how
many decisions it takes, and how its abnormal links combine.  Held against a subject, a pattern
decides its links: each of them is filled with what its target has to match.
-/

namespace Espalier

inductive LinkKind where
  /-- The target has to match for the pattern to match. -/
  | normal
  /-- The target is searched on its own and the outcomes are combined. -/
  | abnormal
  /-- The target is a star that stands for elements of a container. -/
  | multiplicity
deriving DecidableEq, Repr

/-- How the outcomes of abnormal links combine. -/
inductive Evaluator where
  | and
  | not
deriving DecidableEq, Repr

def Evaluator.combine : Evaluator → Bool → Bool
  | .and, all => all
  | .not, all => !all

structure Link (α : Type) where
  slot : Nat
  target : α
  kind : LinkKind
deriving DecidableEq, Repr

structure Query (α : Type) where
  links : List (Link α)
  decisions : Nat
  evaluator : Option Evaluator
deriving DecidableEq, Repr

/-- A link and what its target has to match. -/
structure DecidedLink (α : Type) where
  slot : Nat
  target : α
  kind : LinkKind
  key : Key
deriving DecidableEq, Repr

def DecidedLink.map {α β : Type} (g : α → β) (l : DecidedLink α) : DecidedLink β :=
  { l with target := g l.target }

structure Decided (α : Type) where
  links : List (DecidedLink α)
  evaluator : Option Evaluator
  /-- The way from the subject down to the chosen node. -/
  path : Option (List Site)
deriving DecidableEq, Repr

/-- The link slots of a member.  A single member takes one even if it is open, so that those after
it keep theirs. -/
def Member.width {α : Type} : Member α → Nat
  | .single _ => 1
  | .sequence items | .collection items => items.length

section Query

variable {α : Type} (isStar : α → Bool)

/-- The links of the children of a member from `slot` on. -/
def memberLinks (slot : Nat) (m : Member α) : List (Link α) :=
  m.children.zipIdx.map fun (p, offset) =>
    ⟨slot + offset, p, if isStar p then .multiplicity else .normal⟩

/-- The decisions of a member.  In a sequence every star decides where it ends, but one at the very
end takes what is left; in a collection every other pattern decides for an element. -/
def memberDecisions : Member α → Nat
  | .single _ => 0
  | .sequence items => (items.dropLast.filter isStar).length
  | .collection items => (items.filter fun p => !isStar p).length

def membersLinks : (slot : Nat) → List (Member α) → List (Link α)
  | _, [] => []
  | slot, m :: ms => memberLinks isStar slot m ++ membersLinks (slot + m.width) ms

def Agent.query : Agent α → Query α
  | .standard _ members =>
    ⟨membersLinks isStar 0 members, total (members.map (memberDecisions isStar)), none⟩
  | .star restriction => ⟨restriction.toList.map (⟨0, ·, .abnormal⟩), 0, some .and⟩
  | .stuff terminus restriction =>
    ⟨⟨0, terminus, .normal⟩ :: restriction.toList.map (⟨1, ·, .abnormal⟩), 1, some .and⟩
  | .anyNode terminus => ⟨[⟨0, terminus, .normal⟩], 1, none⟩
  | .overlay through _ | .greenGrass through | .slave through _ =>
    ⟨[⟨0, through, .normal⟩], 0, none⟩
  | .notMatch pattern => ⟨[⟨0, pattern, .abnormal⟩], 0, some .not⟩
  | .matchAll patterns => ⟨patterns.zipIdx.map fun (p, slot) => ⟨slot, p, .normal⟩, 0, none⟩
  | .matchAny patterns => ⟨patterns.zipIdx.map fun (p, slot) => ⟨slot, p, .normal⟩, 1, none⟩

/-- Split a sequence among patterns: a star takes a run of elements, any other pattern one.  `used`
elements came before those of `xs`.  A star leaves room for the patterns after it that are none. -/
def sequenceLinks (slot used : Nat) : List α → List NodeId → Attempt (List (DecidedLink α))
  | [], [] => pure []
  | [], _ :: _ => .mismatch .size
  | p :: ps, xs =>
    if isStar p then
      if ps.isEmpty then pure [⟨slot, p, .multiplicity, .run true xs⟩]
      else
        let room := (ps.filter fun q => !isStar q).length
        if room ≤ xs.length then do
          let stop ← Attempt.choose used (used + (xs.length - room) + 1)
          let taken := stop - used
          let rest ← sequenceLinks (slot + 1) stop ps (xs.drop taken)
          return ⟨slot, p, .multiplicity, .run true (xs.take taken)⟩ :: rest
        else .mismatch .size
    else
      match xs with
      | [] => .mismatch .size
      | x :: xs => do
        let rest ← sequenceLinks (slot + 1) (used + 1) ps xs
        return ⟨slot, p, .normal, .node x⟩ :: rest

/-- Give an element of a collection to each pattern that is no star; the second part is what is left
over. -/
def assign (slot : Nat) : List α → List NodeId → Attempt (List (DecidedLink α) × List NodeId)
  | [], xs => pure ([], xs)
  | p :: ps, xs =>
    if isStar p then assign (slot + 1) ps xs
    else do
      let i ← Attempt.choose 0 xs.length
      match xs[i]? with
      | none => .mismatch .size
      | some x => do
        let (links, rest) ← assign (slot + 1) ps (xs.eraseIdx i)
        return (⟨slot, p, .normal, .node x⟩ :: links, rest)

/-- Share a collection out among patterns: a star takes what the others leave, in their order. -/
def collectionLinks (slot : Nat) (ps : List α) (xs : List NodeId) :
    Attempt (List (DecidedLink α)) :=
  match ps.zipIdx.find? fun (p, _) => isStar p with
  | none =>
    if xs.length = ps.length then return (← assign isStar slot ps xs).1 else .mismatch .size
  | some (star, i) =>
    if ps.length - 1 ≤ xs.length then do
      let (links, rest) ← assign isStar slot ps xs
      return links ++ [⟨slot + i, star, .multiplicity, .run false rest⟩]
    else .mismatch .size

/-- Hold the members of a pattern against those of a subject; `misfit` is the fault of members of
different categories. -/
def membersDecided (misfit : Fault) : (slot : Nat) → List (Member α) → List (Member NodeId) →
    Attempt (List (DecidedLink α))
  | slot, m :: ms, x :: xs => do
    let links ←
      match m, x with
      | .single none, .single _ => pure []
      | .single (some _), .single none => .mismatch .local
      | .single (some p), .single (some c) => pure [⟨slot, p, .normal, .node c⟩]
      | .sequence ps, .sequence items => sequenceLinks isStar slot 0 ps items
      | .collection ps, .collection items => collectionLinks isStar slot ps items
      | _, _ => .fault misfit
    let rest ← membersDecided misfit (slot + m.width) ms xs
    return links ++ rest
  | _, _, _ => pure []

end Query

section Ways

variable {α : Type}

/-- Decide on a site of a walk.  A restriction is held against the nodes above it. -/
def stuffLinks (terminus : α) (restriction : Option α) (walk : Array Site) :
    Attempt (List (DecidedLink α) × Option (List Site)) := do
  let i ← Attempt.choose 0 walk.size
  match walk[i]? with
  | none => .mismatch .size
  | some site =>
    let sites := pathTo walk i
    let restrictions := restriction.toList.flatMap fun r =>
      sites.dropLast.map fun above => ⟨1, r, .abnormal, .node above.node⟩
    return (⟨0, terminus, .normal, .node site.node⟩ :: restrictions, some sites)

/-- Decide on a site right below the start of a walk. -/
def anyNodeLinks (terminus : α) (walk : Array Site) :
    Attempt (List (DecidedLink α) × Option (List Site)) :=
  let below := walk.toList.zipIdx.filter fun (site, _) => site.parent = some 0
  if below.isEmpty then .mismatch .size
  else do
    let i ← Attempt.choose 0 below.length
    match below[i]? with
    | none => .mismatch .size
    | some (site, index) =>
      return ([⟨0, terminus, .normal, .node site.node⟩], some (pathTo walk index))

end Ways

/-- What a search reads and never changes.  Nodes from `watermark` on were built by the current
run. -/
structure Scene (s : Schema) where
  forest : Forest s
  patterns : PatternSet s
  watermark : Nat

namespace PatternSet

variable {s : Schema}

/-- The query of the pattern at `p`. -/
def query (ps : PatternSet s) (p : PatternId) : Query (Fin p) :=
  (ps.pattern p).agent.query fun q => ps.isStar q.val

end PatternSet

namespace Scene

variable {s : Schema}

/-- Hold a pattern that is no star against the node `x`, and decide its links and its path. -/
def decideNode (scene : Scene s) (p : PatternId) (x : NodeId) :
    Attempt (List (DecidedLink (Fin p)) × Option (List Site)) :=
  let f := scene.forest
  let pattern := scene.patterns.pattern p
  let node (slot : Nat) (q : Fin p) (kind : LinkKind) (y : NodeId) : DecidedLink (Fin p) :=
    ⟨slot, q, kind, .node y⟩
  if s.isSubkind (f.kind x) pattern.kind then
    match pattern.agent with
    | .standard value members =>
      if value.isSome ∧ (f.get x).value ≠ value then .mismatch .local
      else
        match f.itemiseAs x pattern.kind with
        | none => .fault (.itemise p x)
        | some subject => do
          let links ← membersDecided (fun q => scene.patterns.isStar q.val) (.itemise p x) 0
            members subject
          return (links, none)
    | .star _ => .fault (.keyShape p)
    | .stuff terminus restriction => stuffLinks terminus restriction (f.preorder x)
    | .anyNode terminus => anyNodeLinks terminus (f.preorder x)
    | .greenGrass through =>
      if scene.watermark ≤ x then .mismatch .local
      else pure ([node 0 through .normal x], none)
    | .overlay through _ | .slave through _ => pure ([node 0 through .normal x], none)
    | .notMatch q => pure ([node 0 q .abnormal x], none)
    | .matchAll qs => pure (qs.zipIdx.map fun (q, slot) => node slot q .normal x, none)
    | .matchAny qs => do
      let slot ← Attempt.choose 0 qs.length
      match qs[slot]? with
      | none => .mismatch .size
      | some q => return ([node slot q .normal x], none)
  else .mismatch .local

/-- Hold a pattern against `key` and decide its links. -/
def decideLinks (scene : Scene s) (p : PatternId) (key : Key) :
    Attempt (List (DecidedLink (Fin p)) × Option (List Site)) :=
  match (scene.patterns.pattern p).agent, key with
  | .star restriction, .run _ items =>
    let kind := (scene.patterns.pattern p).kind
    if items.all fun x => s.isSubkind (scene.forest.kind x) kind then
      let links := restriction.toList.flatMap fun r =>
        items.map fun x => ⟨0, r, .abnormal, .node x⟩
      pure (links, none)
    else .mismatch .local
  | .star _, .node _ | _, .run .. => .fault (.keyShape p)
  | _, .node x => scene.decideNode p x

/-- Hold a pattern against `key`.  A mismatch, too, takes all the decisions that the pattern
declares. -/
def decide (scene : Scene s) (p : PatternId) (key : Key) : Attempt (Decided (Fin p)) :=
  let query := scene.patterns.query p
  let decided : Attempt (Decided (Fin p)) := do
    let (links, path) ← scene.decideLinks p key
    return { links, evaluator := query.evaluator, path }
  Walk.padTo query.decisions decided.run

end Scene

end Espalier
