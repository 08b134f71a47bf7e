import Espalier.Forest.Basic

/-! # Trees outside a forest

A tree names its kinds and members.  `Grow.addTree` puts one into a forest and `Forest.treeAt` takes
one out, without the members that are empty.
-/

namespace Espalier

mutual

/-- A tree with its members in the order of their names. -/
inductive Tree where
  | node (kind : String) (value : Option Value) (members : List (String × Branch))

/-- What a member of a tree holds. -/
inductive Branch where
  | absent
  | one (tree : Tree)
  | many (trees : List Tree)

end

namespace Tree

def kind : Tree → String
  | .node kind _ _ => kind

def value : Tree → Option Value
  | .node _ value _ => value

def members : Tree → List (String × Branch)
  | .node _ _ members => members

end Tree

mutual

/-- How many nodes a tree has. -/
def Tree.size : Tree → Nat
  | .node _ _ members => 1 + membersSize members

def Branch.size : Branch → Nat
  | .absent => 0
  | .one tree => tree.size
  | .many trees => treesSize trees

def treesSize : List Tree → Nat
  | [] => 0
  | t :: ts => t.size + treesSize ts

def membersSize : List (String × Branch) → Nat
  | [] => 0
  | (_, b) :: ms => b.size + membersSize ms

end

theorem size_le_treesSize {t : Tree} {ts : List Tree} (h : t ∈ ts) : t.size ≤ treesSize ts := by
  induction ts with
  | nil => cases h
  | cons u us ih =>
    rw [treesSize]
    rcases List.mem_cons.mp h with rfl | h
    · exact Nat.le_add_right _ _
    · exact Nat.le_trans (ih h) (Nat.le_add_left _ _)

theorem size_le_membersSize {name : String} {b : Branch} {ms : List (String × Branch)}
    (h : ms.lookup name = some b) : b.size ≤ membersSize ms := by
  induction ms with
  | nil => cases h
  | cons m ms ih =>
    obtain ⟨k, c⟩ := m
    rw [membersSize]
    rw [List.lookup_cons] at h
    split at h
    · obtain rfl := Option.some.inj h
      exact Nat.le_add_right _ _
    · exact Nat.le_trans (ih h) (Nat.le_add_left _ _)

/-- Put a member in its place among those sorted by name, instead of one of the same name. -/
def insertMember {α : Type} (name : String) (b : α) : List (String × α) → List (String × α)
  | [] => [(name, b)]
  | (k, c) :: ms =>
    if name < k then (name, b) :: (k, c) :: ms
    else if name = k then (name, b) :: ms
    else (k, c) :: insertMember name b ms

namespace Grow

variable {s : Schema}

/-- Append a tree, children before their parents.  The kind and the names of all members are checked
before the children, the value after them. -/
def addTree (t : Tree) : Grow s SchemaError NodeId := do
  let kind ← match s.kind t.kind with
    | .ok k => pure k
    | .error e => throw e
  match t.members.find? fun (name, _) => (s.memberIndex kind name).isNone with
  | some (name, _) => throw (.unknownMember t.kind name)
  | none => do
    let members ← (s.layout kind).zipIdx.mapM fun (d, index) =>
      match _h : t.members.lookup d.name with
      | none | some .absent => pure (Member.empty d.category)
      | some (.one child) =>
        if d.category = .single then do return .single (some (← addTree child))
        else throw (.memberCategory t.kind index d.category .single)
      | some (.many items) =>
        match d.category with
        | .single => throw (.memberCategory t.kind index .single .sequence)
        | .sequence => do return .sequence (← items.attach.mapM fun ⟨item, _⟩ => addTree item)
        | .collection => do return .collection (← items.attach.mapM fun ⟨item, _⟩ => addTree item)
    insert { kind, value := t.value, members }
termination_by t.size
decreasing_by
  all_goals
    obtain ⟨k, v, ms⟩ := t
    have h := size_le_membersSize _h
    simp only [Tree.members, Branch.size, Tree.size] at *
  · omega
  all_goals
    have := size_le_treesSize (by assumption : item ∈ items)
    omega

end Grow

namespace Forest

variable {s : Schema}

/-- The tree at `id`, without its empty members. -/
def treeAt (f : Forest s) (id : NodeId) : Tree :=
  let n := f.node id
  let members := ((s.layout n.kind).zip n.members).foldl
    (fun ms (d, m) =>
      match m with
      | .single (some c) => insertMember d.name (.one (f.treeAt c.val)) ms
      | .sequence (c :: cs) | .collection (c :: cs) =>
        insertMember d.name (.many ((c :: cs).map fun c => f.treeAt c.val)) ms
      | _ => ms)
    []
  .node (s.name n.kind) n.value members
termination_by id
decreasing_by all_goals exact c.isLt

end Forest

end Espalier
