/-! # Kinds and their layouts

A schema is a catalogue of kinds.  Every kind but the first, `Node`, descends from an earlier one
and starts its layout with the layout of its parent, so a node of a sub-kind can be read as a node
of any of its ancestors by taking a prefix of its members.
-/

namespace Espalier

/-- A kind is named by its place in the schema. -/
abbrev KindId := Nat

/-- How a member holds its children. -/
inductive Category where
  /-- At most one child. -/
  | single
  /-- Children in order, repetitions allowed. -/
  | sequence
  /-- Children in no order, none of them twice. -/
  | collection
deriving DecidableEq, Repr

namespace Category

/-- The word for a category in rule files. -/
def word : Category → String
  | .single => "single"
  | .sequence => "sequence"
  | .collection => "collection"

/-- The word for a category in messages. -/
def title : Category → String
  | .single => "Single"
  | .sequence => "Sequence"
  | .collection => "Collection"

def ofWord? : String → Option Category
  | "single" => some .single
  | "sequence" => some .sequence
  | "collection" => some .collection
  | _ => none

/-- Categories are ordered as they are listed. -/
def rank : Category → Nat
  | .single => 0
  | .sequence => 1
  | .collection => 2

end Category

structure MemberDecl where
  name : String
  category : Category
deriving DecidableEq, Repr

/-- A kind with its full layout, the members it inherits first. -/
structure Kind where
  name : String
  parent : Option KindId
  layout : List MemberDecl
  valued : Bool
deriving DecidableEq, Repr

inductive SchemaError where
  | duplicateKind (name : String)
  | unknownKind (name : String)
  | unknownMember (kind member : String)
  | duplicateMember (kind member : String)
  | memberCategory (kind : String) (index : Nat) (expected found : Category)
  | memberCount (kind : String) (expected found : Nat)
  | unexpectedValue (kind : String)
  | unknownNode (id : Nat)
  | duplicateInCollection (kind : String) (index : Nat)
deriving DecidableEq, Repr

def SchemaError.message : SchemaError → String
  | .duplicateKind name => s!"kind '{name}' is already defined"
  | .unknownKind name => s!"unknown kind '{name}'"
  | .unknownMember kind member => s!"kind '{kind}' has no member named '{member}'"
  | .duplicateMember kind member => s!"member '{member}' of kind '{kind}' is declared twice"
  | .memberCategory kind index expected found =>
    s!"member {index} of '{kind}' should be a {expected.title}, found {found.title}"
  | .memberCount kind expected found =>
    s!"kind '{kind}' declares {expected} members, {found} were given"
  | .unexpectedValue kind => s!"kind '{kind}' does not carry a value"
  | .unknownNode id => s!"node #{id} does not exist in this forest"
  | .duplicateInCollection kind index =>
    s!"collection member {index} of '{kind}' holds the same node twice"

/-- The catalogue of kinds.  A parent always comes before its children. -/
@[ext]
structure Schema where
  kinds : Array Kind
  /-- Where the kinds are, by their names. -/
  byName : List (String × KindId)
  parent_lt : ∀ (i : Nat) (k : Kind), kinds[i]? = some k → ∀ p ∈ k.parent, p < i
deriving DecidableEq

namespace Schema

/-- The kind from which every other one descends. -/
def nodeKind : KindId := 0

/-- The schema that knows `Node` only. -/
def base : Schema where
  kinds := #[{ name := "Node", parent := none, layout := [], valued := false }]
  byName := [("Node", nodeKind)]
  parent_lt i k h p hp := by
    obtain ⟨hi, rfl⟩ := Array.getElem?_eq_some_iff.mp h
    simp at hi
    subst hi
    simp at hp

instance : Inhabited Schema := ⟨base⟩

def size (s : Schema) : Nat := s.kinds.size

def lookup (s : Schema) (name : String) : Option KindId :=
  s.byName.lookup name

/-- The kind called `name`, or the error that there is none. -/
def kind (s : Schema) (name : String) : Except SchemaError KindId :=
  match s.lookup name with
  | some k => .ok k
  | none => .error (.unknownKind name)

def name (s : Schema) (k : KindId) : String :=
  match s.kinds[k]? with
  | some d => d.name
  | none => "?"

def parent (s : Schema) (k : KindId) : Option KindId :=
  s.kinds[k]?.bind (·.parent)

/-- The full layout of a kind, inherited members first. -/
def layout (s : Schema) (k : KindId) : List MemberDecl :=
  match s.kinds[k]? with
  | some d => d.layout
  | none => []

def isValued (s : Schema) (k : KindId) : Bool :=
  match s.kinds[k]? with
  | some d => d.valued
  | none => false

def memberIndex (s : Schema) (k : KindId) (member : String) : Option Nat :=
  (s.layout k).findIdx? (·.name == member)

theorem parent_lt_of_eq {s : Schema} {k p : KindId} (h : s.parent k = some p) : p < k := by
  obtain ⟨d, hd, hp⟩ := Option.bind_eq_some_iff.mp h
  exact s.parent_lt k d hd p hp

/-- Whether `sub` is `sup` or descends from it. -/
def isSubkind (s : Schema) (sub sup : KindId) : Bool :=
  if sub = sup then true
  else
    match _h : s.parent sub with
    | some p => s.isSubkind p sup
    | none => false
termination_by sub
decreasing_by exact parent_lt_of_eq _h

/-- The names of the kinds in the order of their definition. -/
def names (s : Schema) : List String :=
  s.kinds.toList.map (·.name)

/-- `layout` with the members of a new kind at its end.  No two members may share a name. -/
def extendLayout (kind : String) : (layout members : List MemberDecl) →
    Except SchemaError (List MemberDecl)
  | layout, [] => .ok layout
  | layout, m :: ms =>
    if layout.any (·.name == m.name) then .error (.duplicateMember kind m.name)
    else extendLayout kind (layout ++ [m]) ms

/-- Append a kind whose parent, if it has one, is already there.  It cannot be looked up yet. -/
def push (s : Schema) (k : Kind) (h : ∀ p ∈ k.parent, p < s.size) : Schema where
  kinds := s.kinds.push k
  byName := s.byName
  parent_lt i d hd p hp := by
    rw [Array.getElem?_push] at hd
    split at hd
    next hi =>
      obtain rfl := Option.some.inj hd
      exact hi ▸ h p hp
    next => exact s.parent_lt i d hd p hp

/-- Let `name` stand for `k`, whatever it has stood for. -/
def enter (s : Schema) (name : String) (k : KindId) : Schema :=
  { s with byName := (name, k) :: s.byName }

/-- Define a kind below `parent`; its index is the size of the schema before.  A kind carries a
value if it says so or if its parent does. -/
def define (name : String) (parent : KindId) (members : List MemberDecl) (valued : Bool) :
    EStateM SchemaError Schema KindId := do
  let s ← get
  if (s.lookup name).isSome then throw (.duplicateKind name)
  else if h : parent < s.size then
    match extendLayout name (s.layout parent) members with
    | .error e => throw e
    | .ok layout =>
      set (s.push { name, parent := some parent, layout, valued := valued || s.isValued parent }
        (by rintro p ⟨⟩; exact h))
      modify (·.enter name s.size)
      return s.size
  else throw (.unknownKind s!"#{parent}")

end Schema

end Espalier
