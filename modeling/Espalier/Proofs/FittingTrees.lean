import Espalier.Proofs.RoundTrip

/-!
# Trees that go into a forest

A tree goes into a forest if it fits the schema, and only then.  Kinds, names and categories are
looked at on the way down and values on the way up, but whatever is wrong anywhere in the tree is
met in the end: also a name that nothing stands under, and a list without trees where a single tree
belongs.

What goes in is one node for each node of the tree.  The empty members of a tree have none, so that
it comes out of the forest in the size that it went in.
-/

namespace Espalier

variable {s : Schema}

/-! ## Sizes -/

theorem treesSize_eq (ts : List Tree) : treesSize ts = total (ts.map Tree.size) := by
  induction ts with
  | nil => rfl
  | cons t ts ih => rw [treesSize, ih, List.map_cons, total_cons]

theorem Branch.size_eq (b : Branch) : b.size = total (b.trees.map Tree.size) := by
  cases b with
  | absent => rfl
  | one t => rw [size, trees, List.map_singleton, total_cons, total_nil, Nat.add_zero]
  | many ts => rw [size, trees, treesSize_eq]

/-- The size of a branch, if there is one. -/
def branchSize (b : Option Branch) : Nat := b.elim 0 Branch.size

theorem branchSize_pruned? {b : Branch} (h : ∀ t ∈ b.trees, t.pruned.size = t.size) :
    branchSize b.pruned? = b.size := by
  rcases b with _ | t | (_ | ⟨t, ts⟩)
  · rfl
  · exact h t (List.mem_singleton_self t)
  · rfl
  · have hmap : (t :: ts).map (fun t => t.pruned.size) = (t :: ts).map Tree.size :=
      List.map_congr_left h
    rw [Branch.size, treesSize_eq, ← hmap]
    show treesSize (t.pruned :: prunedTrees ts) = _
    rw [treesSize_eq, prunedTrees_eq, ← List.map_cons, List.map_map]
    rfl

theorem membersSize_prunedMembers {ms : List (String × Branch)}
    (h : ∀ m ∈ ms, ∀ t ∈ m.2.trees, t.pruned.size = t.size) :
    membersSize (prunedMembers ms) = membersSize ms := by
  induction ms with
  | nil => rfl
  | cons m ms ih =>
    obtain ⟨name, b⟩ := m
    rw [List.forall_mem_cons] at h
    rw [membersSize, ← ih h.2, ← branchSize_pruned? h.1, prunedMembers]
    cases b.pruned? with
    | none => exact (Nat.zero_add _).symm
    | some b => rfl

/-- Empty members have no nodes. -/
theorem Tree.Sorted.size_pruned {t : Tree} (ht : t.Sorted) : t.pruned.size = t.size := by
  induction ht with
  | node names below ih => rw [pruned, size, size, membersSize_prunedMembers ih]

theorem membersSize_insertMember {ms : List (String × Branch)} {name : String} (b : Branch)
    (h : ms.lookup name = none) :
    membersSize (insertMember name b ms) = b.size + membersSize ms := by
  induction ms with
  | nil => rfl
  | cons m ms ih =>
    obtain ⟨k, c⟩ := m
    rw [List.lookup_cons] at h
    split at h
    next => cases h
    next hne =>
      rw [insertMember, if_neg (beq_eq_false_iff_ne.mp hne)]
      split
      · rfl
      · rw [membersSize, ih h, membersSize]
        omega

/-- Under different names no branch takes the place of another. -/
theorem membersSize_foldl_addBranch {es : List (MemberDecl × Option Branch)}
    {ms : List (String × Branch)} (hnodup : (es.map fun e => e.1.name).Nodup)
    (hfree : ∀ e ∈ es, ms.lookup e.1.name = none) :
    membersSize (es.foldl addBranch ms) =
      membersSize ms + total (es.map fun e => branchSize e.2) := by
  induction es generalizing ms with
  | nil => rfl
  | cons e es ih =>
    rw [List.map_cons, List.nodup_cons, List.mem_map] at hnodup
    rw [List.forall_mem_cons] at hfree
    have hrest : ∀ e' ∈ es, (addBranch ms e).lookup e'.1.name = none := by
      intro e' he'
      have hne : e'.1.name ≠ e.1.name := fun heq => hnodup.1 ⟨e', he', heq⟩
      exact (lookup_addBranch_of_ne hne).trans (hfree.2 e' he')
    have hfirst : membersSize (addBranch ms e) = membersSize ms + branchSize e.2 := by
      obtain ⟨d, b | b⟩ := e
      · rfl
      · exact (membersSize_insertMember b hfree.1).trans (Nat.add_comm _ _)
    rw [List.foldl_cons, ih hnodup.2 hrest, hfirst, List.map_cons, total_cons, Nat.add_assoc]

theorem membersSize_nameBranches {layout : List MemberDecl} {bs : List (Option Branch)}
    (hnodup : (layout.map MemberDecl.name).Nodup) (hlen : bs.length = layout.length) :
    membersSize (nameBranches layout bs) = total (bs.map branchSize) := by
  have hnames : ((layout.zip bs).map fun e => e.1.name).Nodup := by
    rw [map_name_zip hlen]
    exact hnodup
  have hsnd : (layout.zip bs).map (fun e => branchSize e.2) = bs.map branchSize := by
    calc
      _ = ((layout.zip bs).map Prod.snd).map branchSize := (List.map_map ..).symm
      _ = _ := by rw [List.map_snd_zip (Nat.le_of_eq hlen)]
  rw [nameBranches, membersSize_foldl_addBranch hnames fun _ _ => rfl, hsnd, membersSize,
    Nat.zero_add]

theorem Member.branchSize_branch? (tree : NodeId → Tree) (m : Member NodeId) :
    branchSize (m.branch? tree) = total (m.children.map fun c => (tree c).size) := by
  cases hb : m.branch? tree with
  | none => rcases m with (_ | c) | (_ | ⟨c, cs⟩) | (_ | ⟨c, cs⟩) <;> first | rfl | cases hb
  | some b =>
    show b.size = _
    rw [Branch.size_eq, trees_of_branch? hb, List.map_map]
    rfl

/-- A tree that is taken out of a forest has a node for each occurrence there. -/
theorem Forest.size_treeAt {f : Forest s} (hs : s.Distinct) (hf : f.WellFormed) {a : NodeId}
    (ha : a < f.size) : (f.treeAt a).size = f.occurrences a := by
  induction a using Nat.strongRecOn with
  | ind a ih =>
    have hlen : ((f.get a).members.map (Member.branch? f.treeAt)).length =
        (s.layout (f.get a).kind).length := by
      rw [List.length_map]
      exact (hf.get ha).members.length_eq
    have hchildren : (f.children a).map (fun c => (f.treeAt c).size) =
        (f.children a).map f.occurrences := by
      refine List.map_congr_left fun c hc => ?_
      have hlt := f.child_lt_of_mem hc
      exact ih c hlt (Nat.lt_trans hlt ha)
    rw [treeAt_eq, Tree.size, membersSize_nameBranches (hs.members _) hlen, List.map_map,
      occurrences_eq, ← hchildren, children, Node.children, total_map_flatMap]
    simp only [Function.comp_def, Member.branchSize_branch?]

/-! ## Trees and their nodes -/

variable {f : Forest s} {t : Tree}

/-- As many nodes came in as the tree has. -/
theorem Tree.GrownAt.size_eq {f' : Forest s} {y : NodeId} (hs : s.Distinct) (ht : t.Sorted)
    (hext : f.Extends f') (hf' : f'.WellFormed) (h : t.GrownAt f f' y) :
    f'.size = f.size + t.size := by
  have hlt : y < f'.size := h.planted.lt_size (List.mem_singleton_self y)
  have hlength := h.planted.length_eq
  rw [List.flatMap_singleton, Forest.length_nodesFrom, ← Forest.size_treeAt hs hf' hlt, h.treeAt_eq,
    ht.size_pruned, List.length_range'] at hlength
  rw [hlength, Nat.add_sub_cancel' hext.size_le]

namespace Forest

/-- A tree goes into a forest if and only if it fits the schema.  It goes in as one new node for
each of its own and nothing else: every one of them occurs once below the root, which comes last,
and comes after its children. -/
theorem addTree_iff_fits (hs : s.Built) (hf : f.WellFormed) (ht : t.Sorted) :
    ((∃ y f', Grow.addTree t f = .ok y f') ↔ t.Fits s) ∧
    ∀ y f', Grow.addTree t f = .ok y f' →
      f.Extends f' ∧ f'.size = f.size + t.size ∧ f'.size = y + 1 ∧
      ((f'.preorder y).toList.map Site.node).Perm (List.range' f.size t.size) ∧
      (∀ x, f.New f' x → ∀ c ∈ f'.children x, f.size ≤ c ∧ c < x) ∧ f'.treeAt y = t.pruned := by
  have hyields := Grow.yields_grownAt_addTree hs ht hf
  refine ⟨⟨?_, fun hfits => ?_⟩, fun y f' hrun => ?_⟩
  · rintro ⟨y, f', hrun⟩
    exact (hyields.of_ok hrun).2.2.fits
  · obtain ⟨y, f', hrun, -⟩ := (hyields.mono (fun _ hnot => hnot hfits) fun _ _ _ _ => id).exists_ok
    exact ⟨y, f', hrun⟩
  · obtain ⟨hext, hf', hgrown⟩ := hyields.of_ok hrun
    have hplanted := hgrown.planted
    have hsize : f'.size = f.size + t.size := hgrown.size_eq hs.distinct ht hext hf'
    refine ⟨hext, hsize, hplanted.size_eq, ?_, fun x hx c hc => ?_, hgrown.treeAt_eq⟩
    · rw [Planted, List.flatMap_singleton, hsize, Nat.add_sub_cancel_left] at hplanted
      rw [map_node_preorder]
      exact hplanted
    · obtain ⟨z, hz, hmem⟩ := hplanted.mem_of_new hx
      exact ⟨(hplanted.new hz (child_mem_nodesFrom hmem hc)).size_le, f'.child_lt_of_mem hc⟩

/-- A crate with two leaves in its bag and one in its slot, that says of its lid and its row that
they are empty. -/
def packedCrate : Tree :=
  .node "Crate" (some (.bool true)) [("bag", .many [.node "Node" none [], .node "Node" none []]),
    ("lid", .absent), ("row", .many []), ("slot", .one (.node "Node" none []))]

/-- Boxes that hold nothing and fit nowhere: a box has no tag, and its lid is not a list. -/
def strayBoxes : List Tree :=
  [.node "Box" none [("tag", .absent)], .node "Box" none [("lid", .many [])]]

theorem sorted_packedCrate : packedCrate.Sorted := by
  have hleaf : Tree.Sorted (.node "Node" none []) := .node .nil (List.forall_mem_nil _)
  refine .node (by decide +kernel) ?_
  simp only [Branch.trees, List.forall_mem_cons, List.not_mem_nil, false_imp_iff, implies_true,
    and_true, true_and]
  exact ⟨⟨hleaf, hleaf⟩, hleaf⟩

theorem sorted_of_mem_strayBoxes : ∀ t ∈ strayBoxes, t.Sorted := by
  have hbox {name : String} {b : Branch} (h : b.trees = []) :
      Tree.Sorted (.node "Box" none [(name, b)]) := by
    refine .node (List.pairwise_singleton _ _) (List.forall_mem_singleton.mpr ?_)
    rw [h]
    exact List.forall_mem_nil _
  exact List.forall_mem_cons.mpr ⟨hbox rfl, List.forall_mem_singleton.mpr (hbox rfl)⟩

/-- The crate goes in as four nodes, and no stray box does. -/
theorem addTree_iff_fits_fullCrate :
    packedCrate.Fits Workshop.crates ∧
      (∃ f', Grow.addTree packedCrate Workshop.fullCrate = .ok 7 f' ∧ f'.size = 4 + 4 ∧
        ((f'.preorder 7).toList.map Site.node).Perm [4, 5, 6, 7]) ∧
      ∀ t ∈ strayBoxes, ¬ t.Fits Workshop.crates := by
  have hrun : (Grow.addTree packedCrate).run' Workshop.fullCrate = some 7 := by decide +kernel
  have hstray : ∀ t ∈ strayBoxes, (Grow.addTree t).run' Workshop.fullCrate = none := by
    decide +kernel
  obtain ⟨f', hok⟩ := Grow.exists_of_run'_eq_some hrun
  obtain ⟨hiff, hgrown⟩ := addTree_iff_fits Workshop.built_crates Workshop.wellFormed_fullCrate
    sorted_packedCrate
  obtain ⟨-, hsize, -, hnodes, -⟩ := hgrown 7 f' hok
  refine ⟨hiff.mp ⟨7, f', hok⟩, ⟨f', hok, hsize, hnodes⟩, fun t ht hfits => ?_⟩
  obtain ⟨hiff, -⟩ := addTree_iff_fits Workshop.built_crates Workshop.wellFormed_fullCrate
    (sorted_of_mem_strayBoxes t ht)
  obtain ⟨y, f', hok⟩ := hiff.mpr hfits
  have hnone := hstray t ht
  unfold EStateM.run' EStateM.run at hnone
  rw [hok] at hnone
  cases hnone

end Forest

end Espalier
