import Espalier.Forest.Occurrence
import Mathlib.Data.List.Chain

/-!
# Occurrences are ways down

The walk of a subtree lists the ways down from its root: every site lies right below an earlier one,
and below every site the walk has all its children.  So the path to a site is a way along children,
and every such way is the path to some site.
-/

namespace Espalier

variable {s : Schema}

/-- The site `b` lies right below `a`: the node of `a` holds that of `b` where `b` says. -/
def Site.Below (f : Forest s) (a b : Site) : Prop :=
  ∃ m, (f.get a.node).members[b.member]? = some m ∧ m.children[b.position]? = some b.node

namespace Forest

variable {f : Forest s} {x y : NodeId}

theorem mem_childSites {id : NodeId} {index : Nat} {site : Site} :
    site ∈ f.childSites id index ↔ site.parent = some index ∧
      ∃ m, (f.get id).members[site.member]? = some m ∧
        m.children[site.position]? = some site.node := by
  simp only [childSites, List.mem_flatMap, List.mem_map, Prod.exists, List.mem_zipIdx_iff_getElem?]
  constructor
  · rintro ⟨m, member, hm, c, position, hc, rfl⟩
    exact ⟨rfl, m, hm, hc⟩
  · rintro ⟨hparent, m, hm, hc⟩
    refine ⟨m, site.member, hm, site.node, site.position, hc, ?_⟩
    rw [← hparent]

theorem exists_mem_childSites (index : Nat) (h : y ∈ f.children x) :
    ∃ site ∈ f.childSites x index, site.node = y := by
  rw [← f.map_node_childSites x index] at h
  exact List.mem_map.mp h

/-- What the walk that continues `sites` with the subtrees on the stack comes to. -/
structure Walked (f : Forest s) (stack : List Site) (sites walk : Array Site) : Prop where
  kept : ∀ i < sites.size, walk[i]? = sites[i]?
  visits : ∀ site ∈ stack, ∃ i : Nat, walk[i]? = some site
  origin : ∀ (i : Nat) (site : Site), sites.size ≤ i → walk[i]? = some site →
    site ∈ stack ∨ ∃ (j : Nat) (above : Site), j < i ∧ walk[j]? = some above ∧
      site ∈ f.childSites above.node j
  closed : ∀ (i : Nat) (site : Site), sites.size ≤ i → walk[i]? = some site →
    ∀ below ∈ f.childSites site.node i, ∃ j : Nat, walk[j]? = some below

theorem walked_walkFrom (stack : List Site) (sites : Array Site) :
    f.Walked stack sites (f.walkFrom stack sites) := by
  fun_induction f.walkFrom stack sites with
  | case1 sites =>
    have hnone (i : Nat) (site : Site) (hi : sites.size ≤ i) : sites[i]? ≠ some site := by
      rw [Array.getElem?_eq_none hi]
      rintro ⟨⟩
    exact ⟨fun _ _ => rfl, by simp, fun i site hi h => (hnone i site hi h).elim,
      fun i site hi h => (hnone i site hi h).elim⟩
  | case2 sites site stack ih =>
    have hsize : (sites.push site).size = sites.size + 1 := Array.size_push ..
    have hsite : (f.walkFrom (f.childSites site.node sites.size ++ stack)
        (sites.push site))[sites.size]? = some site := by
      rw [ih.kept _ (by omega)]
      exact Array.getElem?_push_size
    refine ⟨fun i hi => ?_, ?_, fun i site' hi h => ?_, fun i site' hi h below hbelow => ?_⟩
    · rw [ih.kept i (by omega), Array.getElem?_push_lt hi, Array.getElem?_eq_getElem hi]
    · rintro site' (_ | ⟨_, hmem⟩)
      · exact ⟨sites.size, hsite⟩
      · exact ih.visits site' (List.mem_append_right _ hmem)
    · rcases Nat.lt_or_eq_of_le hi with hi | rfl
      · rcases ih.origin i site' (by omega) h with hmem | ⟨j, above, hj, habove, hmem⟩
        · rcases List.mem_append.mp hmem with hmem | hmem
          · exact .inr ⟨sites.size, site, hi, hsite, hmem⟩
          · exact .inl (List.mem_cons_of_mem _ hmem)
        · exact .inr ⟨j, above, hj, habove, hmem⟩
      · rw [hsite] at h
        obtain rfl := Option.some.inj h
        exact .inl List.mem_cons_self
    · rcases Nat.lt_or_eq_of_le hi with hi | rfl
      · exact ih.closed i site' (by omega) h below hbelow
      · rw [hsite] at h
        obtain rfl := Option.some.inj h
        exact ih.visits below (List.mem_append_left _ hbelow)

/-- A site of a walk is the root, or lies right below an earlier site. -/
theorem eq_root_or_exists_above {i : Nat} {site : Site} (h : (f.preorder x)[i]? = some site) :
    site = ⟨x, none, 0, 0⟩ ∨ ∃ (j : Nat) (above : Site), j < i ∧
      (f.preorder x)[j]? = some above ∧ site ∈ f.childSites above.node j := by
  rcases (walked_walkFrom [⟨x, none, 0, 0⟩] #[]).origin i site (Nat.zero_le i) h with hmem | hbelow
  · exact .inl (List.mem_singleton.mp hmem)
  · exact .inr hbelow

theorem exists_preorder_of_mem_childSites {i : Nat} {site below : Site}
    (h : (f.preorder x)[i]? = some site) (hbelow : below ∈ f.childSites site.node i) :
    ∃ j : Nat, (f.preorder x)[j]? = some below :=
  (walked_walkFrom [⟨x, none, 0, 0⟩] #[]).closed i site (Nat.zero_le i) h below hbelow

theorem preorder_zero : (f.preorder x)[0]? = some ⟨x, none, 0, 0⟩ := by
  obtain ⟨i, hi⟩ := (f.walked_walkFrom [⟨x, none, 0, 0⟩] #[]).visits _ List.mem_cons_self
  have hpos : 0 < (f.preorder x).size := Nat.zero_lt_of_lt (Array.getElem?_eq_some_iff.mp hi).1
  rcases eq_root_or_exists_above (Array.getElem?_eq_getElem hpos) with hroot | ⟨j, -, hj, -⟩
  · rw [Array.getElem?_eq_getElem hpos, hroot]
  · exact (Nat.not_lt_zero j hj).elim

end Forest

/-! ## Paths -/

theorem pathTo_of_parent_eq_none {walk : Array Site} {i : Nat} {site : Site}
    (h : walk[i]? = some site) (hparent : site.parent = none) : pathTo walk i = [site] := by
  rw [pathTo, h]
  dsimp only
  rw [hparent]

theorem pathTo_of_parent_eq_some {walk : Array Site} {i j : Nat} {site : Site}
    (h : walk[i]? = some site) (hparent : site.parent = some j) (hj : j < i) :
    pathTo walk i = pathTo walk j ++ [site] := by
  rw [pathTo, h]
  dsimp only
  rw [hparent]
  dsimp only
  rw [if_pos hj]

namespace Forest

variable {f : Forest s} {x y : NodeId}

/-- The path to a site starts at the root, goes along children and ends at the site. -/
theorem isChain_pathTo {i : Nat} {site : Site} (h : (f.preorder x)[i]? = some site) :
    (pathTo (f.preorder x) i).head? = some ⟨x, none, 0, 0⟩ ∧
      (pathTo (f.preorder x) i).getLast? = some site ∧
      (pathTo (f.preorder x) i).IsChain (Site.Below f) := by
  induction i using Nat.strongRecOn generalizing site with
  | ind i ih =>
    rcases eq_root_or_exists_above h with rfl | ⟨j, above, hj, habove, hmem⟩
    · rw [pathTo_of_parent_eq_none h rfl]
      exact ⟨rfl, rfl, .singleton _⟩
    · obtain ⟨hparent, hbelow⟩ := mem_childSites.mp hmem
      obtain ⟨hhead, hlast, hchain⟩ := ih j hj habove
      rw [pathTo_of_parent_eq_some h hparent hj]
      refine ⟨?_, List.getLast?_concat, ?_⟩
      · rw [List.head?_append, hhead]
        rfl
      · refine List.isChain_append.mpr ⟨hchain, .singleton _, ?_⟩
        rintro a ha b ⟨⟩
        rw [hlast] at ha
        obtain rfl := Option.some.inj ha
        exact hbelow

/-- A way from `x` down to `y` along children, with the nodes on it above `y`. -/
inductive Way (f : Forest s) (x : NodeId) : List NodeId → NodeId → Prop where
  | refl : Way f x [] x
  | step {above : List NodeId} {y z : NodeId} (h : Way f x above y) (hz : z ∈ f.children y) :
      Way f x (above ++ [y]) z

/-- A site right below the one at `j` comes after it. -/
theorem lt_of_parent_eq_some {i j : Nat} {site : Site} (h : (f.preorder x)[i]? = some site)
    (hparent : site.parent = some j) :
    j < i ∧ ∃ above, (f.preorder x)[j]? = some above ∧ site ∈ f.childSites above.node j := by
  rcases eq_root_or_exists_above h with rfl | ⟨k, above, hk, habove, hmem⟩
  · cases hparent
  · obtain rfl : k = j := Option.some.inj ((mem_childSites.mp hmem).1.symm.trans hparent)
    exact ⟨hk, above, habove, hmem⟩

theorem map_node_pathTo {i : Nat} {site : Site} (h : (f.preorder x)[i]? = some site) :
    (pathTo (f.preorder x) i).map Site.node =
      (pathTo (f.preorder x) i).dropLast.map Site.node ++ [site.node] := by
  obtain ⟨-, hlast, -⟩ := isChain_pathTo h
  conv_lhs => rw [← List.dropLast_append_getLast? site hlast, List.map_append]
  rfl

theorem Way.exists_pathTo {above : List NodeId} (h : f.Way x above y) :
    ∃ (i : Nat) (site : Site), (f.preorder x)[i]? = some site ∧ site.node = y ∧
      (pathTo (f.preorder x) i).dropLast.map Site.node = above := by
  induction h with
  | refl =>
    refine ⟨0, _, preorder_zero, rfl, ?_⟩
    rw [pathTo_of_parent_eq_none preorder_zero rfl]
    rfl
  | step _ hz ih =>
    obtain ⟨i, site, hsite, rfl, rfl⟩ := ih
    obtain ⟨below, hbelow, rfl⟩ := exists_mem_childSites i hz
    obtain ⟨j, hj⟩ := exists_preorder_of_mem_childSites hsite hbelow
    have hparent := (mem_childSites.mp hbelow).1
    refine ⟨j, below, hj, rfl, ?_⟩
    rw [pathTo_of_parent_eq_some hj hparent (lt_of_parent_eq_some hj hparent).1,
      List.dropLast_concat, map_node_pathTo hsite]

/-- The path to a site is a way down to its node. -/
theorem way_pathTo {i : Nat} {site : Site} (h : (f.preorder x)[i]? = some site) :
    f.Way x ((pathTo (f.preorder x) i).dropLast.map Site.node) site.node := by
  induction i using Nat.strongRecOn generalizing site with
  | ind i ih =>
    rcases eq_root_or_exists_above h with rfl | ⟨j, above, hj, habove, hmem⟩
    · rw [pathTo_of_parent_eq_none h rfl]
      exact .refl
    · obtain ⟨hparent, m, hm, hc⟩ := mem_childSites.mp hmem
      rw [pathTo_of_parent_eq_some h hparent hj, List.dropLast_concat, map_node_pathTo habove]
      refine .step (ih j hj habove) ?_
      exact List.mem_flatMap_of_mem (List.mem_of_getElem? hm) (List.mem_of_getElem? hc)

/-- The path to a site right below the root. -/
theorem pathTo_child {i : Nat} {site : Site} (h : (f.preorder x)[i]? = some site)
    (hparent : site.parent = some 0) : pathTo (f.preorder x) i = [⟨x, none, 0, 0⟩, site] := by
  rw [pathTo_of_parent_eq_some h hparent (lt_of_parent_eq_some h hparent).1,
    pathTo_of_parent_eq_none preorder_zero rfl]
  rfl

/-- The sites right below the root are those of the children. -/
theorem exists_child_site_iff :
    (∃ (i : Nat) (site : Site), (f.preorder x)[i]? = some site ∧ site.parent = some 0 ∧
      site.node = y) ↔ y ∈ f.children x := by
  constructor
  · rintro ⟨i, site, h, hparent, rfl⟩
    obtain ⟨-, above, habove, hmem⟩ := lt_of_parent_eq_some h hparent
    obtain rfl := Option.some.inj (preorder_zero.symm.trans habove)
    rw [← f.map_node_childSites x 0]
    exact List.mem_map_of_mem hmem
  · intro h
    obtain ⟨site, hmem, rfl⟩ := exists_mem_childSites 0 h
    obtain ⟨i, hi⟩ := exists_preorder_of_mem_childSites preorder_zero hmem
    exact ⟨i, site, hi, (mem_childSites.mp hmem).1, rfl⟩

end Forest

end Espalier
