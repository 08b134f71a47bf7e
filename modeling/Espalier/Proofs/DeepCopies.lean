import Espalier.Proofs.Preorder

/-!
# Deep copies

A copy of a subtree is made while the forest that it is read from grows, and its nodes are not
checked.  It is the same tree all the same, with the children of a collection in the same order, and
it is planted: its nodes are those that came in, one for each occurrence in the subtree, and so it
shares nothing with what was there before and nothing within itself.
-/

namespace Espalier

variable {s : Schema}

namespace Forest

variable {f f' : Forest s} {a b x : NodeId}

/-! ## The same tree twice -/

theorem Twins.treeAt_eq (h : f.Twins a b) : f.treeAt a = f.treeAt b := ForestPair.Twins.treeAt_eq h

theorem Twins.occurrences_eq (h : f.Twins a b) : f.occurrences a = f.occurrences b := by
  induction a using Nat.strongRecOn generalizing b with
  | ind a ih =>
    obtain ⟨-, -, hget⟩ := twins_iff.mp h
    have hchildren : (f.children a).map f.occurrences = (f.children b).map f.occurrences := by
      rw [← List.forall₂_eq_eq_eq, List.forall₂_map_left_iff, List.forall₂_map_right_iff]
      exact forall₂_mono hget.forall₂_children fun c hc d _ hcd => ih c (f.child_lt_of_mem hc) hcd
    rw [Forest.occurrences_eq, Forest.occurrences_eq, hchildren]

theorem Extends.size_preorder_eq (h : f.Extends f') (hx : x < f.size) :
    (f'.preorder x).size = (f.preorder x).size := by
  rw [size_preorder, size_preorder, ← length_nodesFrom, ← length_nodesFrom, h.nodesFrom_eq hx]

/-! ## Copies -/

/-- The walk over what is planted meets the nodes that came in, each once. -/
theorem Planted.perm_preorder (h : f.Planted f' [x]) :
    ((f'.preorder x).toList.map Site.node).Perm (List.range' f.size (f'.size - f.size)) := by
  rw [map_node_preorder]
  simpa [Planted] using h

/-- In `f'`, which `f` has grown to, `copy` is a deep copy of `a`. -/
structure DeepCopied (f f' : Forest s) (a copy : NodeId) : Prop where
  wellFormed : f'.WellFormed
  /-- What was there is unchanged. -/
  kept : f.Extends f'
  /-- One node has come in for each occurrence in the subtree at `a`. -/
  size_eq : f'.size = f.size + (f.preorder a).size
  /-- The copy is the last of them. -/
  last : f'.size = copy + 1
  compare_eq : f'.compare a copy = .eq
  treeAt_eq : f'.treeAt copy = f'.treeAt a
  /-- The copy has none of the nodes that were there. -/
  new : ∀ x ∈ (f'.preorder copy).toList.map Site.node, f.size ≤ x
  /-- Every node of it occurs once. -/
  once : ∀ x ∈ (f'.preorder copy).toList.map Site.node,
    ((f'.preorder copy).toList.map Site.node).count x = 1
  /-- No collection of it has a node twice. -/
  nodup : ∀ x ∈ (f'.preorder copy).toList.map Site.node, ∀ items,
    .collection items ∈ (f'.get x).members → items.Nodup

theorem Planted.deepCopied {copy : NodeId} (hf' : f'.WellFormed) (hext : f.Extends f')
    (ha : a < f.size) (htwins : f'.Twins a copy) (hplanted : f.Planted f' [copy]) :
    f.DeepCopied f' a copy where
  wellFormed := hf'
  kept := hext
  size_eq := by
    have hlength := hplanted.perm_preorder.length_eq
    rw [List.length_map, Array.length_toList, List.length_range', size_preorder,
      ← htwins.occurrences_eq, ← size_preorder, hext.size_preorder_eq ha] at hlength
    have hle := hext.size_le
    omega
  last := hplanted.size_eq
  compare_eq := htwins.compare_eq
  treeAt_eq := htwins.treeAt_eq.symm
  new x hx := (List.mem_range'_1.mp (hplanted.perm_preorder.mem_iff.mp hx)).1
  once x hx := List.count_eq_one_of_mem (hplanted.perm_preorder.nodup_iff.mpr List.nodup_range') hx
  nodup x hx items hitems := by
    rw [map_node_preorder] at hx
    exact (hf'.get (hplanted.new (List.mem_singleton_self copy) hx).lt_size).nodup items hitems

theorem wellFormed_crateBox : crateBox.WellFormed :=
  Workshop.wellFormed_fullCrate.push
    (check_eq_ok_iff.mp (rfl : Workshop.fullCrate.check _ = .ok ())).1

end Forest

namespace Grow

/-- A node of a well-formed forest can always be copied, and its copy is a deep one. -/
theorem deepCopied_duplicate {ε : Type} {f : Forest s} {a : NodeId} (hf : f.WellFormed)
    (ha : a < f.size) :
    ∃ copy f', (duplicate a : Grow s ε NodeId) f = .ok copy f' ∧ f.DeepCopied f' a copy := by
  obtain ⟨copy, f', hrun, hext, hf', htwins, hplanted⟩ :=
    (Yields.duplicate Forest.upheld_wellFormed hf (.inl ha)).exists_ok
  exact ⟨copy, f', hrun, hplanted.deepCopied hf' hext ha (htwins ha)⟩

/-- The crate is copied for each of the three places that it has in the box. -/
theorem deepCopied_duplicate_crateBox :
    4 < Forest.crateBox.size ∧ ∃ f',
      (duplicate 4 : Grow Workshop.crates RunError NodeId) Forest.crateBox =
      .ok 33 f' ∧ f'.size = 5 + 29 ∧ Forest.crateBox.DeepCopied f' 4 33 := by
  have hlt : 4 < Forest.crateBox.size := by decide +kernel
  obtain ⟨copy, f', hrun, hcopy⟩ :=
    deepCopied_duplicate (ε := RunError) Forest.wellFormed_crateBox hlt
  have hsize : f'.size = 5 + 29 := hcopy.size_eq.trans (by decide +kernel)
  obtain rfl : copy = 33 := Nat.succ.inj (hcopy.last.symm.trans hsize)
  exact ⟨hlt, f', hrun, hsize, hcopy⟩

end Grow

end Espalier
