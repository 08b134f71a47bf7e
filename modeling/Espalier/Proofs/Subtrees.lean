import Espalier.Proofs.Twins
import Mathlib.Data.List.Flatten

/-!
# Subtrees and what they are planted with

The nodes of a subtree, each as often as it occurs, say what it shares: with the rest of the forest,
or within itself.  Material is planted if the nodes below it are the nodes that came in meanwhile,
all of them, and every one occurs there once.  That is more than newness of its roots, and it is
what can be put together: materials that are planted one after the other are planted together, and a
node that is put on top of planted children is planted in their stead.
-/

namespace Espalier

variable {s : Schema}

/-! ## The nodes of a subtree -/

namespace Forest

variable {f f' f'' : Forest s} {x y : NodeId}

/-- The nodes of the subtree at `x`, each as often as it occurs. -/
def nodesFrom (f : Forest s) (x : NodeId) : List NodeId :=
  x :: (f.node x).children.flatMap fun c => f.nodesFrom c.val
termination_by x
decreasing_by exact c.isLt

theorem nodesFrom_eq (f : Forest s) (x : NodeId) :
    f.nodesFrom x = x :: (f.children x).flatMap f.nodesFrom := by
  rw [nodesFrom, children, ← Node.map_val_children_below x (f.get x)
    (fun _ hc => f.child_lt_of_mem hc), List.flatMap_map]
  rfl

theorem self_mem_nodesFrom (f : Forest s) (x : NodeId) : x ∈ f.nodesFrom x := by
  rw [nodesFrom_eq]
  exact List.mem_cons_self

theorem mem_nodesFrom_of_child {c z : NodeId} (hc : c ∈ f.children x) (hz : z ∈ f.nodesFrom c) :
    z ∈ f.nodesFrom x := by
  rw [nodesFrom_eq]
  exact List.mem_cons_of_mem _ (List.mem_flatMap_of_mem hc hz)

/-- A child of a node of the subtree is one, too. -/
theorem child_mem_nodesFrom {c : NodeId} (hy : y ∈ f.nodesFrom x) (hc : c ∈ f.children y) :
    c ∈ f.nodesFrom x := by
  induction x using Nat.strongRecOn with
  | ind x ih =>
    rw [nodesFrom_eq] at hy
    rcases List.mem_cons.mp hy with rfl | hy
    · exact mem_nodesFrom_of_child hc (f.self_mem_nodesFrom c)
    · obtain ⟨d, hd, hy⟩ := List.mem_flatMap.mp hy
      exact mem_nodesFrom_of_child hd (ih d (f.child_lt_of_mem hd) hy)

theorem le_of_mem_nodesFrom (hy : y ∈ f.nodesFrom x) : y ≤ x := by
  induction x using Nat.strongRecOn with
  | ind x ih =>
    rw [nodesFrom_eq] at hy
    rcases List.mem_cons.mp hy with rfl | hy
    · exact Nat.le_refl y
    · obtain ⟨c, hc, hy⟩ := List.mem_flatMap.mp hy
      have hlt := f.child_lt_of_mem hc
      exact Nat.le_trans (ih c hlt hy) (Nat.le_of_lt hlt)

theorem Extends.nodesFrom_eq (h : f.Extends f') (hx : x < f.size) :
    f'.nodesFrom x = f.nodesFrom x := by
  induction x using Nat.strongRecOn with
  | ind x ih =>
    have hchildren : f'.children x = f.children x := by rw [children, children, h.get_eq x hx]
    rw [Forest.nodesFrom_eq, Forest.nodesFrom_eq, hchildren]
    congr 1
    refine List.flatMap_congr fun c hc => ?_
    have hlt : c < x := f.child_lt_of_mem hc
    exact ih c hlt (Nat.lt_trans hlt hx)

/-! ## The same tree twice in one forest -/

/-- The trees at `a` and `b` are the same. -/
def Twins (f : Forest s) (a b : NodeId) : Prop := (⟨f, f, []⟩ : ForestPair s).Twins a b

theorem twins_iff {a b : NodeId} :
    f.Twins a b ↔ a < f.size ∧ b < f.size ∧ (f.get a).Parallel f.Twins (f.get b) := by
  rw [Twins, ForestPair.twins_iff]
  simp only [List.not_mem_nil, false_imp_iff, implies_true, true_and]
  rfl

theorem Extends.twins {a b : NodeId} (h : f.Extends f') (hab : f.Twins a b) : f'.Twins a b := by
  have hpair : (⟨f, f, []⟩ : ForestPair s).Extends ⟨f', f', []⟩ := ⟨h, h, rfl⟩
  exact hpair.twins hab

theorem Twins.compare_eq {a b : NodeId} (h : f.Twins a b) : f.compare a b = .eq := by
  induction a using Nat.strongRecOn generalizing b with
  | ind a ih =>
    obtain ⟨-, -, hget⟩ := twins_iff.mp h
    refine compare_of_alike (hget.alike.mono fun c hc d _ hcd => ?_)
    exact ih c (f.child_lt_of_mem hc) hcd

theorem Twins.same {a b : NodeId} (h : f.Twins a b) : f.Same a b :=
  ⟨(twins_iff.mp h).1, (twins_iff.mp h).2.1, h.compare_eq⟩

/-! ## Planted nodes -/

/-- What came in between `f` and `f'` is what is below `xs`, and occurs there once. -/
def Planted (f f' : Forest s) (xs : List NodeId) : Prop :=
  (xs.flatMap f'.nodesFrom).Perm (List.range' f.size (f'.size - f.size))

namespace Planted

variable {xs ys : List NodeId}

theorem nil (f : Forest s) : f.Planted f [] := by simp [Planted]

theorem new {z : NodeId} (h : f.Planted f' xs) (hx : x ∈ xs) (hz : z ∈ f'.nodesFrom x) :
    f.New f' z := by
  obtain ⟨hle, hlt⟩ := List.mem_range'_1.mp (h.mem_iff.mp (List.mem_flatMap_of_mem hx hz))
  refine ⟨hle, ?_⟩
  rcases Nat.le_total f.size f'.size with hsize | hsize
  · rwa [Nat.add_sub_cancel' hsize] at hlt
  · rw [Nat.sub_eq_zero_of_le hsize] at hlt
    exact absurd hlt (Nat.not_lt.mpr hle)

theorem lt_size (h : f.Planted f' xs) (hx : x ∈ xs) : x < f'.size :=
  (h.new hx (f'.self_mem_nodesFrom x)).lt_size

theorem mem_of_new {z : NodeId} (h : f.Planted f' xs) (hz : f.New f' z) :
    ∃ x ∈ xs, z ∈ f'.nodesFrom x := by
  refine List.mem_flatMap.mp (h.mem_iff.mpr (List.mem_range'_1.mpr ⟨hz.size_le, ?_⟩))
  rw [Nat.add_sub_cancel' (Nat.le_of_lt (Nat.lt_of_le_of_lt hz.size_le hz.lt_size))]
  exact hz.lt_size

/-- A single root is what comes in last. -/
theorem size_eq (h : f.Planted f' [x]) : f'.size = x + 1 := by
  obtain ⟨hle, hlt⟩ := h.new (List.mem_singleton_self x) (f'.self_mem_nodesFrom x)
  refine Nat.le_antisymm ?_ hlt
  have hlast : f.New f' (f'.size - 1) :=
    ⟨Nat.le_trans hle (Nat.le_sub_one_of_lt hlt), Nat.sub_lt (Nat.zero_lt_of_lt hlt) Nat.one_pos⟩
  obtain ⟨y, hy, hmem⟩ := h.mem_of_new hlast
  rw [List.mem_singleton.mp hy] at hmem
  exact Nat.le_add_of_sub_le (le_of_mem_nodesFrom hmem)

theorem nodup_nodes (h : f.Planted f' xs) : (xs.flatMap f'.nodesFrom).Nodup :=
  h.nodup_iff.mpr List.nodup_range'

theorem nodup (h : f.Planted f' xs) : xs.Nodup := by
  have hsub : (xs.flatMap ([·])).Sublist (xs.flatMap f'.nodesFrom) :=
    .flatMap_right xs fun x _ => List.singleton_sublist.mpr (f'.self_mem_nodesFrom x)
  rw [List.flatMap_singleton'] at hsub
  exact h.nodup_nodes.sublist hsub

theorem append (h : f.Extends f') (h' : f'.Extends f'') (hxs : f.Planted f' xs)
    (hys : f'.Planted f'' ys) : f.Planted f'' (xs ++ ys) := by
  have hkept : xs.flatMap f''.nodesFrom = xs.flatMap f'.nodesFrom :=
    List.flatMap_congr fun x hx => h'.nodesFrom_eq (hxs.lt_size hx)
  have hsize : f.size + (f'.size - f.size) = f'.size := Nat.add_sub_cancel' h.size_le
  have hsize' : f'.size - f.size + (f''.size - f'.size) = f''.size - f.size := by
    have := h'.size_le
    omega
  rw [Planted, List.flatMap_append, hkept, ← hsize', ← List.range'_append_1, hsize]
  exact List.Perm.append hxs hys

/-- A node on top of planted children is planted in their stead. -/
theorem push {n : Node NodeId} (h : f.Extends f') (hn : f.Planted f' n.children) :
    f.Planted (f'.push n) [f'.size] := by
  have hlow (c) (hc : c ∈ n.children) : c < f'.size := hn.lt_size hc
  have hkept : n.children.flatMap (f'.push n).nodesFrom = n.children.flatMap f'.nodesFrom :=
    List.flatMap_congr fun c hc => (extends_push hlow).nodesFrom_eq (hlow c hc)
  have hsize : f'.size + 1 - f.size = f'.size - f.size + 1 := Nat.succ_sub h.size_le
  have hlast : f.size + (f'.size - f.size) = f'.size := Nat.add_sub_cancel' h.size_le
  rw [Planted, List.flatMap_singleton, nodesFrom_eq, children, get_push_size hlow, hkept,
    size_push hlow, hsize, List.range'_1_concat, hlast]
  exact (List.Perm.cons _ hn).trans (List.perm_append_singleton _ _).symm

theorem fresh (h : f.Planted f' xs) : f.Fresh f' xs :=
  ⟨h.nodup, fun x hx => (h.new hx (f'.self_mem_nodesFrom x)).size_le, fun _ => h.lt_size⟩

end Planted

end Forest

end Espalier
