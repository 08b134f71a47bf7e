import Espalier.Schema

/-! # Forests of subject nodes

A forest is an append-only store of nodes over one schema.  A node refers to its children by index
and every child comes before its parents, so a forest has no cycles, and a subtree met twice is one
node referred to twice.
-/

namespace Espalier

/-- A node is named by its place in the forest. -/
abbrev NodeId := Nat

/-- What a node of a valued kind may carry. -/
inductive Value where
  | bool (b : Bool)
  | int (i : Int64)
  | str (s : String)
deriving DecidableEq, Repr

/-- One member of a node whose children are given by references of type `α`. -/
inductive Member (α : Type) where
  | single (child : Option α)
  | sequence (items : List α)
  | collection (items : List α)
deriving DecidableEq, Repr

namespace Member

variable {α β : Type}

/-- The member without children. -/
def empty : Category → Member α
  | .single => .single none
  | .sequence => .sequence []
  | .collection => .collection []

def category : Member α → Category
  | .single _ => .single
  | .sequence _ => .sequence
  | .collection _ => .collection

def children : Member α → List α
  | .single child => child.toList
  | .sequence items | .collection items => items

def map (g : α → β) : Member α → Member β
  | .single child => .single (child.map g)
  | .sequence items => .sequence (items.map g)
  | .collection items => .collection (items.map g)

/-- Replace every child by the result of an action, in order. -/
def mapM {m : Type → Type} [Monad m] (g : α → m β) : Member α → m (Member β)
  | .single none => pure (.single none)
  | .single (some child) => do return .single (some (← g child))
  | .sequence items => do return .sequence (← items.mapM g)
  | .collection items => do return .collection (← items.mapM g)

/-- The same member with the bound on its children in their type. -/
def below (n : Nat) : (m : Member Nat) → (∀ c ∈ m.children, c < n) → Member (Fin n)
  | .single none, _ => .single none
  | .single (some c), h => .single (some ⟨c, h c (by simp [children])⟩)
  | .sequence items, h => .sequence (items.pmap Fin.mk h)
  | .collection items, h => .collection (items.pmap Fin.mk h)

@[simp] theorem category_empty (c : Category) : (empty c : Member α).category = c := by
  cases c <;> rfl

@[simp] theorem children_empty (c : Category) : (empty c : Member α).children = [] := by
  cases c <;> rfl

@[simp] theorem category_map (g : α → β) (m : Member α) : (m.map g).category = m.category := by
  cases m <;> rfl

@[simp] theorem children_map (g : α → β) (m : Member α) :
    (m.map g).children = m.children.map g := by
  rcases m with (_ | _) | _ | _ <;> rfl

theorem map_val_pmap_mk {n : Nat} (items : List Nat) (h : ∀ c ∈ items, c < n) :
    (items.pmap Fin.mk h).map Fin.val = items := by
  simp [List.map_pmap]

@[simp] theorem map_val_below (n : Nat) (m : Member Nat) (h : ∀ c ∈ m.children, c < n) :
    (m.below n h).map Fin.val = m := by
  rcases m with (_ | _) | items | items
  · rfl
  · rfl
  · exact congrArg sequence (map_val_pmap_mk items h)
  · exact congrArg collection (map_val_pmap_mk items h)

end Member

/-- A node whose children are given by references of type `α`. -/
structure Node (α : Type) where
  kind : KindId
  value : Option Value
  members : List (Member α)
deriving DecidableEq, Repr

namespace Node

variable {α β : Type}

instance : Inhabited (Node α) := ⟨⟨Schema.nodeKind, none, []⟩⟩

/-- The children in the order of the members. -/
def children (n : Node α) : List α :=
  n.members.flatMap Member.children

def map (g : α → β) (n : Node α) : Node β :=
  { n with members := n.members.map (Member.map g) }

/-- The same node with the bound on its children in their type. -/
def below (b : Nat) (n : Node Nat) (h : ∀ c ∈ n.children, c < b) : Node (Fin b) :=
  { n with
    members := n.members.pmap (fun m hm => m.below b hm) fun _ hm c hc =>
      h c (List.mem_flatMap_of_mem hm hc) }

@[simp] theorem kind_below (b : Nat) (n : Node Nat) (h : ∀ c ∈ n.children, c < b) :
    (n.below b h).kind = n.kind := rfl

@[simp] theorem value_below (b : Nat) (n : Node Nat) (h : ∀ c ∈ n.children, c < b) :
    (n.below b h).value = n.value := rfl

@[simp] theorem map_val_below (b : Nat) (n : Node Nat) (h : ∀ c ∈ n.children, c < b) :
    (n.below b h).map Fin.val = n := by
  simp [below, map, List.map_pmap]

@[simp] theorem children_map (g : α → β) (n : Node α) :
    (n.map g).children = n.children.map g := by
  simp [map, children, List.flatMap_map, List.map_flatMap]

@[simp] theorem map_val_children_below (b : Nat) (n : Node Nat) (h : ∀ c ∈ n.children, c < b) :
    (n.below b h).children.map Fin.val = n.children := by
  rw [← children_map, map_val_below]

end Node

/-- Nodes over the schema `s`, children before their parents. -/
structure Forest (s : Schema) where
  nodes : Array (Node NodeId)
  child_lt : ∀ (i : Nat) (n : Node NodeId), nodes[i]? = some n → ∀ c ∈ n.children, c < i

namespace Forest

variable {s : Schema}

def empty : Forest s where
  nodes := #[]
  child_lt i n h := by simp at h

instance : Inhabited (Forest s) := ⟨empty⟩

def size (f : Forest s) : Nat := f.nodes.size

/-- The node at `id`; beyond the end of the forest, a bare node without members. -/
def get (f : Forest s) (id : NodeId) : Node NodeId :=
  f.nodes[id]?.getD default

def kind (f : Forest s) (id : NodeId) : KindId := (f.get id).kind

/-- The children of a node come before it. -/
theorem child_lt_of_mem (f : Forest s) {id c : NodeId} (h : c ∈ (f.get id).children) : c < id := by
  unfold get at h
  cases hn : f.nodes[id]? with
  | none => simp [hn, default, Node.children] at h
  | some n =>
    rw [hn] at h
    exact f.child_lt id n hn c h

/-- The node at `id` with its children known to come before `bound`. -/
def within (f : Forest s) (bound : Nat) (id : NodeId) (h : id ≤ bound) : Node (Fin bound) :=
  (f.get id).below bound fun _ hc => Nat.lt_of_lt_of_le (f.child_lt_of_mem hc) h

/-- The node at `id` with its children known to come before it. -/
def node (f : Forest s) (id : NodeId) : Node (Fin id) :=
  f.within id id (Nat.le_refl id)

def children (f : Forest s) (id : NodeId) : List NodeId := (f.get id).children

/-- Append a node.  One that refers to nodes that are not there yet is left out. -/
def push (f : Forest s) (n : Node NodeId) : Forest s :=
  if h : ∀ c ∈ n.children, c < f.size then
    { nodes := f.nodes.push n
      child_lt := fun i m hm c hc => by
        rw [Array.getElem?_push] at hm
        split at hm
        next hi =>
          obtain rfl := Option.some.inj hm
          exact hi ▸ h c hc
        next => exact f.child_lt i m hm c hc }
  else f

/-- Whether `members` fit the declarations and hold nodes of the forest only, none of them twice in
one collection.  `index` is the index of the first of them. -/
def checkMembers (f : Forest s) (kind : String) : (index : Nat) → List MemberDecl →
    List (Member NodeId) → Except SchemaError Unit
  | index, d :: ds, m :: ms =>
    if d.category ≠ m.category then
      .error (.memberCategory kind index d.category m.category)
    else
      match m.children.find? (f.size ≤ ·) with
      | some c => .error (.unknownNode c)
      | none =>
        if m.category = .collection ∧ ¬ m.children.Nodup then
          .error (.duplicateInCollection kind index)
        else f.checkMembers kind (index + 1) ds ms
  | _, _, _ => .ok ()

/-- Whether a node may be appended. -/
def check (f : Forest s) (n : Node NodeId) : Except SchemaError Unit :=
  if s.size ≤ n.kind then .error (.unknownKind s!"#{n.kind}")
  else if n.value.isSome ∧ ¬ s.isValued n.kind then .error (.unexpectedValue (s.name n.kind))
  else if (s.layout n.kind).length ≠ n.members.length then
    .error (.memberCount (s.name n.kind) (s.layout n.kind).length n.members.length)
  else f.checkMembers (s.name n.kind) 0 (s.layout n.kind) n.members

/-- The members of a node without children. -/
def emptyMembers (s : Schema) (kind : KindId) : List (Member NodeId) :=
  (s.layout kind).map fun d => .empty d.category

/-- The members of `id` seen as a node of `kind`, if it is one. -/
def itemiseAs (f : Forest s) (id : NodeId) (kind : KindId) : Option (List (Member NodeId)) :=
  let n := f.get id
  let width := (s.layout kind).length
  if s.isSubkind n.kind kind ∧ width ≤ n.members.length then some (n.members.take width) else none

/-- `m` with its child at `position` replaced.  In a collection that already holds the new child
elsewhere the old one is dropped instead. -/
def replaceChild (m : Member NodeId) (position : Nat) (child : NodeId) : Option (Member NodeId) :=
  match m with
  | .single _ => some (.single (some child))
  | .sequence items =>
    if position < items.length then some (.sequence (items.set position child)) else none
  | .collection items =>
    if position < items.length then
      if child ∈ items.eraseIdx position then some (.collection (items.eraseIdx position))
      else some (.collection (items.set position child))
    else none

/-- The node at `id` with its child at `position` of `member` replaced. -/
def withChild (f : Forest s) (id : NodeId) (member position : Nat) (child : NodeId) :
    Except SchemaError (Node NodeId) :=
  let n := f.get id
  match n.members[member]?.bind (replaceChild · position child) with
  | some m => .ok { n with members := n.members.set member m }
  | none => .error (.memberCount (s.name n.kind) (member + 1) n.members.length)

end Forest

/-- Computations that append to a forest.  One that fails keeps what it has appended so far. -/
abbrev Grow (s : Schema) (ε : Type) (α : Type) := EStateM ε (Forest s) α

namespace Grow

variable {s : Schema} {ε : Type}

def push (n : Node NodeId) : Grow s ε NodeId := fun f => .ok f.size (f.push n)

/-- Append a node that fits the schema; its index is the size of the forest before. -/
def insert (n : Node NodeId) : Grow s SchemaError NodeId := fun f =>
  match f.check n with
  | .error e => .error e f
  | .ok () => push n f

/-- Append a copy of `id` whose child at `position` of `member` is replaced. -/
def withChild (id : NodeId) (member position : Nat) (child : NodeId) : Grow s SchemaError NodeId :=
  fun f =>
    match f.withChild id member position child with
    | .error e => .error e f
    | .ok n => insert n f

/-- Append a deep copy of the subtree at `id`, children before their parents.  Every node of the
copy is new, also where the subtree meets one node twice. -/
def duplicate (id : NodeId) : Grow s ε NodeId := do
  let n := (← get).node id
  let members ← n.members.mapM (Member.mapM fun c => duplicate c.val)
  push { n with members }
termination_by id
decreasing_by exact c.isLt

end Grow

end Espalier
