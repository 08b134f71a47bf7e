import Espalier.Forest.Basic
import Espalier.Total

/-! # Occurrences in a subtree

The walk of a subtree lists its occurrences, root first and children in the order of the members.  A
node that is met on several ways from the root occurs once for each of them.
-/

namespace Espalier

/-- An occurrence of a node in a walk. -/
structure Site where
  node : NodeId
  /-- Where the parent occurs in the same walk. -/
  parent : Option Nat
  /-- The member of the parent that holds the node. -/
  member : Nat
  /-- The position in that member. -/
  position : Nat
deriving DecidableEq, Repr

namespace Forest

variable {s : Schema}

/-- How many occurrences the subtree at `id` has. -/
def occurrences (f : Forest s) (id : NodeId) : Nat :=
  1 + total ((f.node id).children.map fun c => f.occurrences c.val)
termination_by id
decreasing_by exact c.isLt

theorem occurrences_eq (f : Forest s) (id : NodeId) :
    f.occurrences id = 1 + total ((f.children id).map f.occurrences) := by
  rw [occurrences, children, ← Node.map_val_children_below id (f.get id)
    (fun _ hc => f.child_lt_of_mem hc), List.map_map]
  rfl

/-- The sites of the children of a node that occurs at `index`. -/
def childSites (f : Forest s) (id : NodeId) (index : Nat) : List Site :=
  (f.get id).members.zipIdx.flatMap fun (m, member) =>
    m.children.zipIdx.map fun (c, position) => ⟨c, some index, member, position⟩

theorem map_node_childSites (f : Forest s) (id : NodeId) (index : Nat) :
    (f.childSites id index).map Site.node = f.children id := by
  have child (xs : List NodeId) (member : Nat) : (xs.zipIdx.map fun (c, position) =>
      (⟨c, some index, member, position⟩ : Site)).map Site.node = xs := by
    rw [List.map_map]
    exact List.zipIdx_map_fst 0 xs
  simp only [childSites, List.map_flatMap, child, children, Node.children]
  conv => rhs; rw [← List.zipIdx_map_fst 0 (f.get id).members, List.flatMap_map]

/-- The walk that continues `sites` with the subtrees at the sites on the stack. -/
def walkFrom (f : Forest s) (stack : List Site) (sites : Array Site) : Array Site :=
  match stack with
  | [] => sites
  | site :: stack => f.walkFrom (f.childSites site.node sites.size ++ stack) (sites.push site)
termination_by total (stack.map fun site => f.occurrences site.node)
decreasing_by
  have h := congrArg (fun ids => total (ids.map f.occurrences))
    (f.map_node_childSites site.node sites.size)
  simp only [List.map_map, Function.comp_def] at h
  simp only [List.map_append, total_append, List.map_cons, total_cons, h,
    f.occurrences_eq site.node]
  omega

/-- Every occurrence in the subtree at `root`, root first, children in the order of the members. -/
def preorder (f : Forest s) (root : NodeId) : Array Site :=
  f.walkFrom [⟨root, none, 0, 0⟩] #[]

end Forest

/-- The sites from the start of a walk down to the one at `index`.  A parent comes before its
children. -/
def pathTo (walk : Array Site) (index : Nat) : List Site :=
  match walk[index]? with
  | none => []
  | some site =>
    match site.parent with
    | some p => if p < index then pathTo walk p ++ [site] else [site]
    | none => [site]
termination_by index

end Espalier
