import Espalier.Forest.Basic

/-! # Patterns

A pattern node pairs a kind with an agent that says how the node matches and how it is rebuilt.  The
kind is a first restriction: only nodes of that kind or of a sub-kind reach the agent.  A pattern
set is append-only and children come before their parents, so the patterns form a directed acyclic
graph.  A pattern met in several places is one pattern, and whatever it matches there has to be
equal.
-/

namespace Espalier

/-- A pattern is named by its place in the pattern set. -/
abbrev PatternId := Nat

/-- Whether a rule looks for its pattern everywhere below the root or at the root only. -/
inductive Mode where
  | search
  | compare
deriving DecidableEq, Repr

namespace Mode

def word : Mode → String
  | .search => "search"
  | .compare => "compare"

def ofWord? : String → Option Mode
  | "search" => some .search
  | "compare" => some .compare
  | _ => none

end Mode

/-- What a pattern node does, with references of type `α` to other patterns. -/
inductive Agent (α : Type) where
  /-- A node with the given value, if there is one, and one pattern for each member.  A single
  member without a pattern is open.  An empty container matches an empty container only, but leaves
  the container of the subject as it is when it is rebuilt. -/
  | standard (value : Option Value) (members : List (Member α))
  /-- Any number of elements of the container around it. -/
  | star (restriction : Option α)
  /-- Some node of the subtree, where every node on the way to it satisfies the restriction. -/
  | stuff (terminus : α) (restriction : Option α)
  /-- Some child. -/
  | anyNode (terminus : α)
  /-- Matches as `through` and is rebuilt as `above` on top of it. -/
  | overlay (through above : α)
  | notMatch (pattern : α)
  | matchAll (patterns : List α)
  | matchAny (patterns : List α)
  /-- Matches only what was there before the current run began. -/
  | greenGrass (through : α)
  /-- Matches as `through`; once rebuilt, the rule at `root` is run over the result. -/
  | slave (through root : α)
deriving DecidableEq, Repr

namespace Agent

variable {α β : Type}

/-- The word for an agent in rule files. -/
def word : Agent α → String
  | .standard .. => "standard"
  | .star .. => "star"
  | .stuff .. => "stuff"
  | .anyNode .. => "any-node"
  | .overlay .. => "overlay"
  | .notMatch .. => "not-match"
  | .matchAll .. => "match-all"
  | .matchAny .. => "match-any"
  | .greenGrass .. => "green-grass"
  | .slave .. => "slave"

/-- Every pattern that the agent refers to. -/
def children : Agent α → List α
  | .standard _ members => members.flatMap Member.children
  | .star restriction => restriction.toList
  | .stuff terminus restriction => terminus :: restriction.toList
  | .anyNode terminus => [terminus]
  | .overlay through above => [through, above]
  | .notMatch pattern => [pattern]
  | .matchAll patterns | .matchAny patterns => patterns
  | .greenGrass through => [through]
  | .slave through root => [through, root]

/-- The patterns that a rebuild goes on to. -/
def rebuilt : Agent α → List α
  | .standard _ members => members.flatMap Member.children
  | .stuff terminus _ | .anyNode terminus => [terminus]
  | .overlay _ above => [above]
  | .greenGrass through | .slave through _ => [through]
  | .star _ | .notMatch _ | .matchAll _ | .matchAny _ => []

def isStar : Agent α → Bool
  | .star _ => true
  | _ => false

def isDisjunction : Agent α → Bool
  | .matchAny _ => true
  | _ => false

def map (g : α → β) : Agent α → Agent β
  | .standard value members => .standard value (members.map (Member.map g))
  | .star restriction => .star (restriction.map g)
  | .stuff terminus restriction => .stuff (g terminus) (restriction.map g)
  | .anyNode terminus => .anyNode (g terminus)
  | .overlay through above => .overlay (g through) (g above)
  | .notMatch pattern => .notMatch (g pattern)
  | .matchAll patterns => .matchAll (patterns.map g)
  | .matchAny patterns => .matchAny (patterns.map g)
  | .greenGrass through => .greenGrass (g through)
  | .slave through root => .slave (g through) (g root)

/-- The same agent with the bound on its references in their type. -/
def below (b : Nat) : (a : Agent Nat) → (∀ c ∈ a.children, c < b) → Agent (Fin b)
  | .standard value members, h =>
    .standard value <| members.pmap (fun m hm => m.below b hm) fun _ hm c hc =>
      h c (List.mem_flatMap_of_mem hm hc)
  | .star none, _ => .star none
  | .star (some r), h => .star (some ⟨r, h r (by simp [children])⟩)
  | .stuff t none, h => .stuff ⟨t, h t (by simp [children])⟩ none
  | .stuff t (some r), h =>
    .stuff ⟨t, h t (by simp [children])⟩ (some ⟨r, h r (by simp [children])⟩)
  | .anyNode t, h => .anyNode ⟨t, h t (by simp [children])⟩
  | .overlay t o, h => .overlay ⟨t, h t (by simp [children])⟩ ⟨o, h o (by simp [children])⟩
  | .notMatch p, h => .notMatch ⟨p, h p (by simp [children])⟩
  | .matchAll ps, h => .matchAll (ps.pmap Fin.mk h)
  | .matchAny ps, h => .matchAny (ps.pmap Fin.mk h)
  | .greenGrass t, h => .greenGrass ⟨t, h t (by simp [children])⟩
  | .slave t r, h => .slave ⟨t, h t (by simp [children])⟩ ⟨r, h r (by simp [children])⟩

@[simp] theorem map_val_below (b : Nat) (a : Agent Nat) (h : ∀ c ∈ a.children, c < b) :
    (a.below b h).map Fin.val = a := by
  cases a with
  | standard value members => simp [below, map, List.map_pmap]
  | star r => cases r <;> rfl
  | stuff t r => cases r <;> rfl
  | matchAll ps => exact congrArg matchAll (Member.map_val_pmap_mk ps h)
  | matchAny ps => exact congrArg matchAny (Member.map_val_pmap_mk ps h)
  | _ => rfl

end Agent

structure Pattern (α : Type) where
  kind : KindId
  agent : Agent α
deriving DecidableEq, Repr

instance {α : Type} : Inhabited (Pattern α) := ⟨⟨Schema.nodeKind, .standard none []⟩⟩

inductive PatternError where
  | unknownPattern (id : Nat)
  | starOutsideContainer (id : Nat)
  | multipleStarsInCollection (kind : String) (index : Nat)
  | emptyDisjunction (id : Nat)
  | schema (e : SchemaError)
deriving DecidableEq, Repr

def PatternError.message : PatternError → String
  | .unknownPattern id => s!"pattern node @{id} does not exist"
  | .starOutsideContainer id =>
    s!"star @{id} may only appear directly inside a sequence or collection"
  | .multipleStarsInCollection kind index =>
    s!"collection member {index} of '{kind}' holds more than one star"
  | .emptyDisjunction id => s!"match-any @{id} needs at least one disjunct"
  | .schema e => e.message

/-- Patterns over the schema `s`, children before their parents. -/
structure PatternSet (s : Schema) where
  nodes : Array (Pattern PatternId)
  child_lt : ∀ (i : Nat) (n : Pattern PatternId), nodes[i]? = some n → ∀ c ∈ n.agent.children, c < i

namespace PatternSet

variable {s : Schema}

def empty : PatternSet s where
  nodes := #[]
  child_lt i n h := by simp at h

instance : Inhabited (PatternSet s) := ⟨empty⟩

def size (ps : PatternSet s) : Nat := ps.nodes.size

/-- The pattern at `p`; beyond the end of the set, a bare one. -/
def get (ps : PatternSet s) (p : PatternId) : Pattern PatternId :=
  ps.nodes[p]?.getD default

theorem child_lt_of_mem (ps : PatternSet s) {p c : PatternId}
    (h : c ∈ (ps.get p).agent.children) : c < p := by
  unfold get at h
  cases hn : ps.nodes[p]? with
  | none => simp [hn, default, Agent.children] at h
  | some n =>
    rw [hn] at h
    exact ps.child_lt p n hn c h

/-- The pattern at `p` with its references known to come before it. -/
def pattern (ps : PatternSet s) (p : PatternId) : Pattern (Fin p) where
  kind := (ps.get p).kind
  agent := (ps.get p).agent.below p fun _ hc => ps.child_lt_of_mem hc

def isStar (ps : PatternSet s) (p : PatternId) : Bool := (ps.get p).agent.isStar

/-- A pattern in one line: its index, its agent and its kind. -/
def describe (ps : PatternSet s) (p : PatternId) : String :=
  let n := ps.get p
  s!"@{p} {n.agent.word} {s.name n.kind}"

/-- Whether the members of a standard pattern fit the declarations, with stars where they may be. -/
def checkMembers (ps : PatternSet s) (kind : String) : (index : Nat) → List MemberDecl →
    List (Member PatternId) → Except PatternError Unit
  | index, d :: ds, m :: ms =>
    if d.category ≠ m.category then
      .error (.schema (.memberCategory kind index d.category m.category))
    else
      match m, m.children.filter ps.isStar with
      | .single _, star :: _ => .error (.starOutsideContainer star)
      | .collection _, _ :: _ :: _ => .error (.multipleStarsInCollection kind index)
      | _, _ => ps.checkMembers kind (index + 1) ds ms
  | _, _, _ => .ok ()

def checkStandard (ps : PatternSet s) (kind : KindId) (value : Option Value)
    (members : List (Member PatternId)) : Except PatternError Unit :=
  if value.isSome ∧ ¬ s.isValued kind then .error (.schema (.unexpectedValue (s.name kind)))
  else if (s.layout kind).length ≠ members.length then
    .error (.schema (.memberCount (s.name kind) (s.layout kind).length members.length))
  else ps.checkMembers (s.name kind) 0 (s.layout kind) members

/-- Whether a pattern may be appended. -/
def check (ps : PatternSet s) (kind : KindId) (agent : Agent PatternId) :
    Except PatternError Unit :=
  if agent = .matchAny [] then .error (.emptyDisjunction ps.size)
  else if s.size ≤ kind then .error (.schema (.unknownKind s!"#{kind}"))
  else
    match agent.children.find? (ps.size ≤ ·) with
    | some c => .error (.unknownPattern c)
    | none =>
      match agent with
      | .standard value members => ps.checkStandard kind value members
      | _ =>
        match agent.children.find? ps.isStar with
        | some star => .error (.starOutsideContainer star)
        | none => .ok ()

/-- Append a pattern.  One that refers to patterns that are not there yet is left out. -/
def push (ps : PatternSet s) (n : Pattern PatternId) : PatternSet s :=
  if h : ∀ c ∈ n.agent.children, c < ps.size then
    { nodes := ps.nodes.push n
      child_lt := fun i m hm c hc => by
        rw [Array.getElem?_push] at hm
        split at hm
        next hi =>
          obtain rfl := Option.some.inj hm
          exact hi ▸ h c hc
        next => exact ps.child_lt i m hm c hc }
  else ps

/-- Append a pattern that fits the schema; its index is the size of the set before. -/
def insert (ps : PatternSet s) (kind : KindId) (agent : Agent PatternId) :
    Except PatternError (PatternSet s) :=
  match ps.check kind agent with
  | .error e => .error e
  | .ok () => .ok (ps.push ⟨kind, agent⟩)

end PatternSet

/-- Computations that append to a pattern set.  One that fails keeps what it has appended so far. -/
abbrev Draft (s : Schema) (α : Type) := EStateM PatternError (PatternSet s) α

namespace Draft

variable {s : Schema}

def pattern (kind : KindId) (agent : Agent PatternId) : Draft s PatternId := fun ps =>
  match ps.insert kind agent with
  | .error e => .error e ps
  | .ok ps' => .ok ps.size ps'

/-- A standard pattern with every member open or empty. -/
def blank (kind : KindId) : Draft s PatternId :=
  pattern kind (.standard none (Forest.emptyMembers s kind))

/-- The root of a rule: the search pattern overlaid by the replacement, or by itself if there is
none, anywhere in the subject if the rule searches. -/
def wrap (search : PatternId) (replace : Option PatternId) (mode : Mode) : Draft s PatternId := do
  let overlay ← pattern Schema.nodeKind (.overlay search (replace.getD search))
  match mode with
  | .compare => return overlay
  | .search => pattern Schema.nodeKind (.stuff overlay none)

/-- A pattern that matches as `through` and, once rebuilt, runs a rule over the result. -/
def slave (kind : KindId) (through search : PatternId) (replace : Option PatternId) (mode : Mode) :
    Draft s PatternId := do
  let root ← wrap search replace mode
  pattern kind (.slave through root)

end Draft

/-- The patterns met on the way down from `p`, each once and when it is first met, after those of
`seen`. -/
def reach (next : (p : PatternId) → List (Fin p)) (seen : List PatternId) (p : PatternId) :
    List PatternId :=
  if p ∈ seen then seen
  else (next p).foldl (fun seen c => reach next seen c.val) (seen ++ [p])
termination_by p
decreasing_by exact c.isLt

theorem mem_reach (next : (p : PatternId) → List (Fin p)) {seen : List PatternId} {p q : PatternId}
    (h : q ∈ reach next seen p) : q ∈ seen ∨ q ≤ p := by
  induction p using Nat.strongRecOn generalizing seen with
  | ind p ih =>
    rw [reach] at h
    split at h
    · exact .inl h
    · have fold (cs : List (Fin p)) (seen : List PatternId)
          (h : q ∈ cs.foldl (fun seen c => reach next seen c.val) seen) : q ∈ seen ∨ q ≤ p := by
        induction cs generalizing seen with
        | nil => exact .inl h
        | cons c cs ihc =>
          obtain h | h := ihc _ h
          · exact (ih c.val c.isLt h).imp_right fun hq =>
              Nat.le_of_lt (Nat.lt_of_le_of_lt hq c.isLt)
          · exact .inr h
      obtain h | h := fold _ _ h
      · obtain h | h := List.mem_append.mp h
        · exact .inl h
        · exact .inr (Nat.le_of_eq (List.mem_singleton.mp h))
      · exact .inr h

namespace PatternSet

variable {s : Schema}

/-- Every pattern that `root` refers to, directly or through others, `root` first. -/
def reachable (ps : PatternSet s) (root : PatternId) : List PatternId :=
  reach (fun p => (ps.pattern p).agent.children) [] root

/-- Every pattern that a rebuild of `root` may go on to. -/
def rebuiltFrom (ps : PatternSet s) (root : PatternId) : List PatternId :=
  reach (fun p => (ps.pattern p).agent.rebuilt) [] root

theorem le_of_mem_rebuiltFrom {ps : PatternSet s} {root p : PatternId}
    (h : p ∈ ps.rebuiltFrom root) : p ≤ root := by
  simpa using mem_reach _ h

end PatternSet

end Espalier
