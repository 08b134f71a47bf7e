import Espalier.Proofs.Planting
import Mathlib.Logic.Function.Iterate

/-!
# Walks list the occurrences

A node may be met on several ways from the root, and a walk has a site for each of them.  What tells
the occurrences in a subtree apart is the steps that lead to them, each a member and a position in
it.  A walk goes through them in lexicographic order: a node before all that is below it, and all
that is below one child before the next child.

The walk is made in turns, with a stack of the sites that are still to be visited.  One recursion
over the subtree lists the same sites, with the same parents, and another one the steps that lead to
them.
-/

namespace Espalier

variable {s : Schema}

/-- The lists that are made of the elements, each with the place where it starts. -/
def inTurn {α β : Type} (list : Nat → α → List β) : Nat → List α → List β
  | _, [] => []
  | start, a :: as => list start a ++ inTurn list (start + (list start a).length) as

theorem inTurn_append {α β : Type} (list : Nat → α → List β) (start : Nat) (as bs : List α) :
    inTurn list start (as ++ bs) =
      inTurn list start as ++ inTurn list (start + (inTurn list start as).length) bs := by
  induction as generalizing start with
  | nil => rfl
  | cons a as ih =>
    rw [List.cons_append, inTurn, inTurn, ih, List.append_assoc, List.length_append, Nat.add_assoc]

theorem inTurn_map {α β γ : Type} (list : Nat → β → List γ) (g : α → β) (start : Nat)
    (as : List α) : inTurn list start (as.map g) = inTurn (fun i a => list i (g a)) start as := by
  induction as generalizing start with
  | nil => rfl
  | cons a as ih => rw [List.map_cons, inTurn, inTurn, ih]

namespace Forest

variable {f : Forest s} {x y : NodeId}

/-! ## The turns of a walk -/

/-- One turn of a walk: the site on top of the stack is listed, and those of its children take its
place. -/
def walkTurn (f : Forest s) : List Site × Array Site → List Site × Array Site
  | ([], sites) => ([], sites)
  | (site :: stack, sites) => (f.childSites site.node sites.size ++ stack, sites.push site)

theorem total_childSites (f : Forest s) (x : NodeId) (index : Nat) :
    total ((f.childSites x index).map fun site => f.occurrences site.node) + 1 =
      f.occurrences x := by
  rw [occurrences_eq, ← f.map_node_childSites x index, List.map_map, Nat.add_comm]
  rfl

/-- The stack is empty after one turn for each occurrence below it. -/
theorem iterate_walkTurn (stack : List Site) (sites : Array Site) :
    f.walkTurn^[total (stack.map fun site => f.occurrences site.node)] (stack, sites) =
      ([], f.walkFrom stack sites) := by
  fun_induction f.walkFrom stack sites with
  | case1 sites => rfl
  | case2 sites site stack ih =>
    have hturns : total ((site :: stack).map fun site => f.occurrences site.node) =
        total ((f.childSites site.node sites.size ++ stack).map fun site =>
          f.occurrences site.node) + 1 := by
      rw [List.map_cons, total_cons, List.map_append, total_append,
        ← f.total_childSites site.node sites.size]
      omega
    rw [hturns, Function.iterate_succ_apply]
    exact ih

/-! ## The recursion over the subtree -/

theorem node_lt_of_mem_childSites (f : Forest s) (x : NodeId) (index : Nat) :
    ∀ site ∈ f.childSites x index, site.node < x := by
  intro site hsite
  have hchild : site.node ∈ f.children x := by
    rw [← f.map_node_childSites x index]
    exact List.mem_map_of_mem hsite
  exact f.child_lt_of_mem hchild

/-- The sites of the subtree at `site`, which is listed at `index`: first itself, then those of the
subtrees of its children, one after the other. -/
def sitesFrom (f : Forest s) (index : Nat) (site : Site) : List Site :=
  site :: inTurn
    (fun i (below : { below : Site // below.node < site.node }) => f.sitesFrom i below.val)
    (index + 1)
    ((f.childSites site.node index).attachWith _ (f.node_lt_of_mem_childSites site.node index))
termination_by site.node
decreasing_by exact below.property

theorem sitesFrom_eq (f : Forest s) (index : Nat) (site : Site) :
    f.sitesFrom index site = site ::
      inTurn f.sitesFrom (index + 1) (f.childSites site.node index) := by
  conv_rhs =>
    rw [← List.attachWith_map_subtype_val (f.node_lt_of_mem_childSites site.node index), inTurn_map]
  rw [sitesFrom]

theorem toList_walkFrom (stack : List Site) (sites : Array Site) :
    (f.walkFrom stack sites).toList = sites.toList ++ inTurn f.sitesFrom sites.size stack := by
  fun_induction f.walkFrom stack sites with
  | case1 sites => simp [inTurn]
  | case2 sites site stack ih =>
    rw [ih, Array.toList_push, Array.size_push, inTurn_append, inTurn,
      f.sitesFrom_eq sites.size site,
      List.length_cons, List.append_assoc, List.singleton_append, List.cons_append]
    congr 4
    omega

/-- A walk lists what the recursion lists. -/
theorem toList_preorder (f : Forest s) (x : NodeId) :
    (f.preorder x).toList = f.sitesFrom 0 ⟨x, none, 0, 0⟩ := by
  rw [preorder, toList_walkFrom]
  simp [inTurn]

end Forest

/-! ## The steps to an occurrence -/

/-- The member and the position that a site has in its parent. -/
def Site.step (site : Site) : Nat × Nat := (site.member, site.position)

/-- The steps from the start of a walk down to the site at `index`. -/
def stepsTo (walk : Array Site) (index : Nat) : List (Nat × Nat) :=
  (pathTo walk index).tail.map Site.step

/-- Members are told apart first, then the positions in one of them. -/
abbrev StepLt : Nat × Nat → Nat × Nat → Prop := Prod.Lex (· < ·) (· < ·)

theorem pathTo_ne_nil {walk : Array Site} {i : Nat} {site : Site} (h : walk[i]? = some site) :
    pathTo walk i ≠ [] := by
  rw [pathTo, h]
  dsimp only
  split
  · split <;> simp
  · simp

theorem stepsTo_of_parent_eq_none {walk : Array Site} {i : Nat} {site : Site}
    (h : walk[i]? = some site) (hparent : site.parent = none) : stepsTo walk i = [] := by
  rw [stepsTo, pathTo_of_parent_eq_none h hparent]
  rfl

theorem stepsTo_of_parent_eq_some {walk : Array Site} {i j : Nat} {site : Site}
    (h : walk[i]? = some site) (hparent : site.parent = some j) (hj : j < i) :
    stepsTo walk i = stepsTo walk j ++ [site.step] := by
  have hi : i < walk.size := (Array.getElem?_eq_some_iff.mp h).1
  have hne : pathTo walk j ≠ [] := pathTo_ne_nil (Array.getElem?_eq_getElem (Nat.lt_trans hj hi))
  rw [stepsTo, pathTo_of_parent_eq_some h hparent hj, List.tail_append_of_ne_nil hne,
    List.map_append]
  rfl

/-- The steps down to a site of the stack, if `walk` is what the stack comes to. -/
def Site.stepsIn (walk : Array Site) (site : Site) : List (Nat × Nat) :=
  match site.parent with
  | none => []
  | some i => stepsTo walk i ++ [site.step]

theorem pairwise_zipIdx {α : Type} (xs : List α) (n : Nat) :
    (xs.zipIdx n).Pairwise fun a b => a.2 < b.2 := by
  refine List.pairwise_map.mp ?_
  rw [List.zipIdx_map_snd]
  exact List.pairwise_lt_range' 1

namespace Forest

variable {f : Forest s} {x y : NodeId}

/-- The node that the steps lead to from `x`. -/
def along (f : Forest s) : NodeId → List (Nat × Nat) → Option NodeId
  | x, [] => some x
  | x, step :: steps => ((f.get x).child? step.1 step.2).bind (f.along · steps)

theorem follow_eq_along (f : Forest s) (x : NodeId) (path : List Site) :
    f.follow x path = f.along x (path.map Site.step) := by
  induction path generalizing x with
  | nil => rfl
  | cons site path ih =>
    rw [follow, List.map_cons, along]
    exact Option.bind_congr fun y _ => ih y

theorem childSites_eq_map (f : Forest s) (x : NodeId) (index : Nat) :
    f.childSites x index = (f.childSites x 0).map fun site =>
      { site with parent := some index } := by
  simp [childSites, List.map_flatMap, Function.comp_def]

theorem pairwise_childSites (f : Forest s) (x : NodeId) (index : Nat) :
    (f.childSites x index).Pairwise fun a b => StepLt a.step b.step := by
  refine List.pairwise_flatMap.mpr ⟨fun m _ => ?_, (pairwise_zipIdx _ 0).imp ?_⟩
  · exact List.pairwise_map.mpr ((pairwise_zipIdx _ 0).imp fun h => .right _ h)
  · intro m m' hlt a ha b hb
    obtain ⟨c, -, rfl⟩ := List.mem_map.mp ha
    obtain ⟨d, -, rfl⟩ := List.mem_map.mp hb
    exact .left _ _ hlt

theorem child?_eq_some_iff {step : Nat × Nat} :
    (f.get x).child? step.1 step.2 = some y ↔
      ∃ site ∈ f.childSites x 0, site.step = step ∧ site.node = y := by
  constructor
  · intro h
    exact ⟨⟨y, some 0, step.1, step.2⟩, mem_childSites.mpr ⟨rfl, Option.bind_eq_some_iff.mp h⟩,
      rfl, rfl⟩
  · rintro ⟨site, hsite, rfl, rfl⟩
    exact Option.bind_eq_some_iff.mpr (mem_childSites.mp hsite).2

/-- The steps to every occurrence in the subtree at `x`: none to the root, and to what is below a
child the step to that child first. -/
def routesFrom (f : Forest s) (x : NodeId) : List (List (Nat × Nat)) :=
  [] :: ((f.childSites x 0).attachWith _ (f.node_lt_of_mem_childSites x 0)).flatMap fun below =>
    (f.routesFrom below.val.node).map (below.val.step :: ·)
termination_by x
decreasing_by exact below.property

theorem routesFrom_eq (f : Forest s) (x : NodeId) (index : Nat) :
    f.routesFrom x = [] :: (f.childSites x index).flatMap fun below =>
      (f.routesFrom below.node).map (below.step :: ·) := by
  rw [childSites_eq_map, List.flatMap_map]
  conv_rhs =>
    rw [← List.attachWith_map_subtype_val (f.node_lt_of_mem_childSites x 0), List.flatMap_map]
  rw [routesFrom]
  rfl

theorem mem_routesFrom_iff {steps : List (Nat × Nat)} :
    steps ∈ f.routesFrom x ↔ (f.along x steps).isSome = true := by
  induction steps generalizing x with
  | nil =>
    rw [f.routesFrom_eq x 0]
    simp [along]
  | cons step steps ih =>
    rw [f.routesFrom_eq x 0]
    constructor
    · intro h
      obtain ⟨site, hsite, hroute⟩ :=
        List.mem_flatMap.mp ((List.mem_cons.mp h).resolve_left (by simp))
      obtain ⟨rest, hrest, heq⟩ := List.mem_map.mp hroute
      obtain ⟨rfl, rfl⟩ := List.cons.inj heq
      rw [along, child?_eq_some_iff.mpr ⟨site, hsite, rfl, rfl⟩]
      exact ih.mp hrest
    · intro h
      obtain ⟨y, hy⟩ := Option.isSome_iff_exists.mp h
      obtain ⟨c, hc, hrest⟩ := Option.bind_eq_some_iff.mp hy
      obtain ⟨site, hsite, rfl, rfl⟩ := child?_eq_some_iff.mp hc
      refine List.mem_cons_of_mem _
        (List.mem_flatMap_of_mem hsite (List.mem_map_of_mem (ih.mpr ?_)))
      exact Option.isSome_iff_exists.mpr ⟨y, hrest⟩

/-- The steps are listed in lexicographic order. -/
theorem pairwise_routesFrom (f : Forest s) (x : NodeId) :
    (f.routesFrom x).Pairwise (List.Lex StepLt) := by
  induction x using Nat.strongRecOn with
  | ind x ih =>
    rw [f.routesFrom_eq x 0, List.pairwise_cons, List.pairwise_flatMap]
    refine ⟨?_, ?_, ?_⟩
    · intro steps hsteps
      obtain ⟨site, -, hsteps⟩ := List.mem_flatMap.mp hsteps
      obtain ⟨rest, -, rfl⟩ := List.mem_map.mp hsteps
      exact .nil
    · intro site hsite
      exact List.pairwise_map.mpr
        ((ih site.node (f.node_lt_of_mem_childSites x 0 site hsite)).imp .cons)
    · refine (f.pairwise_childSites x 0).imp ?_
      intro a b hlt v hv w hw
      obtain ⟨v, -, rfl⟩ := List.mem_map.mp hv
      obtain ⟨w, -, rfl⟩ := List.mem_map.mp hw
      exact .rel hlt

/-- The steps to the sites of a walk are those to its first ones, and then those to what is on the
stack. -/
theorem map_stepsTo_walkFrom {stack : List Site} {sites walk : Array Site}
    (hparent : ∀ site ∈ stack, ∀ i, site.parent = some i → i < sites.size)
    (hwalk : f.walkFrom stack sites = walk) :
    (List.range walk.size).map (stepsTo walk) = (List.range sites.size).map (stepsTo walk) ++
      stack.flatMap fun site => (f.routesFrom site.node).map (site.stepsIn walk ++ ·) := by
  fun_induction f.walkFrom stack sites with
  | case1 sites =>
    subst hwalk
    simp
  | case2 sites site stack ih =>
    have hsite : walk[sites.size]? = some site := by
      rw [← hwalk, (walked_walkFrom _ _).kept _ (by simp)]
      exact Array.getElem?_push_size
    have hsteps : stepsTo walk sites.size = site.stepsIn walk := by
      rw [Site.stepsIn]
      split
      next h => exact stepsTo_of_parent_eq_none hsite h
      next i h => exact stepsTo_of_parent_eq_some hsite h (hparent site List.mem_cons_self i h)
    have hchild (below) (hbelow : below ∈ f.childSites site.node sites.size) :
        below.stepsIn walk = site.stepsIn walk ++ [below.step] := by
      rw [Site.stepsIn, (mem_childSites.mp hbelow).1]
      dsimp only
      rw [hsteps]
    have hbelow : ((f.childSites site.node sites.size).flatMap fun below =>
        (f.routesFrom below.node).map (below.stepsIn walk ++ ·)) =
          ((f.childSites site.node sites.size).flatMap fun below =>
            (f.routesFrom below.node).map (below.step :: ·)).map (site.stepsIn walk ++ ·) := by
      rw [List.map_flatMap]
      refine List.flatMap_congr fun below hbelow => ?_
      simp [hchild below hbelow]
    rw [ih ?_ hwalk, Array.size_push, List.range_succ, List.map_append, List.flatMap_append, hbelow,
      List.flatMap_cons, f.routesFrom_eq site.node sites.size]
    · simp [hsteps]
    · intro below hmem i hi
      rw [Array.size_push]
      rcases List.mem_append.mp hmem with hmem | hmem
      · cases (mem_childSites.mp hmem).1.symm.trans hi
        exact Nat.lt_succ_self _
      · exact Nat.lt_succ_of_lt (hparent below (List.mem_cons_of_mem _ hmem) i hi)

/-- The steps to the sites of a walk are the routes, one after the other. -/
theorem map_stepsTo_preorder (f : Forest s) (x : NodeId) :
    (List.range (f.preorder x).size).map (stepsTo (f.preorder x)) = f.routesFrom x := by
  have hroot : ∀ site ∈ [(⟨x, none, 0, 0⟩ : Site)], ∀ i, site.parent = some i →
      i < (#[] : Array Site).size := by
    intro site hsite i hi
    rw [List.mem_singleton.mp hsite] at hi
    cases hi
  have hwalk : f.walkFrom [⟨x, none, 0, 0⟩] #[] = f.preorder x := rfl
  rw [map_stepsTo_walkFrom hroot hwalk]
  simp [Site.stepsIn]

theorem along_stepsTo {i : Nat} {site : Site} (h : (f.preorder x)[i]? = some site) :
    f.along x (stepsTo (f.preorder x) i) = some site.node := by
  obtain ⟨hhead, hlast, hchain⟩ := isChain_pathTo h
  rw [stepsTo, ← follow_eq_along]
  exact follow_of_isChain hchain hhead hlast

theorem lex_stepsTo {i j : Nat} (hij : i < j) (hj : j < (f.preorder x).size) :
    List.Lex StepLt (stepsTo (f.preorder x) i) (stepsTo (f.preorder x) j) := by
  have hpairwise := f.pairwise_routesFrom x
  rw [← map_stepsTo_preorder, List.pairwise_map, List.pairwise_iff_getElem] at hpairwise
  have h := hpairwise i j (by simpa using Nat.lt_trans hij hj) (by simpa using hj) hij
  rwa [List.getElem_range, List.getElem_range] at h

theorem exists_stepsTo_iff {steps : List (Nat × Nat)} :
    (∃ i site, (f.preorder x)[i]? = some site ∧ stepsTo (f.preorder x) i = steps ∧ site.node = y) ↔
      f.along x steps = some y := by
  constructor
  · rintro ⟨i, site, hsite, rfl, rfl⟩
    exact along_stepsTo hsite
  · intro h
    have hmem : steps ∈ f.routesFrom x :=
      mem_routesFrom_iff.mpr (Option.isSome_iff_exists.mpr ⟨y, h⟩)
    rw [← map_stepsTo_preorder] at hmem
    obtain ⟨i, hi, rfl⟩ := List.mem_map.mp hmem
    have hsite := Array.getElem?_eq_getElem (List.mem_range.mp hi)
    refine ⟨i, _, hsite, rfl, ?_⟩
    exact Option.some.inj ((along_stepsTo hsite).symm.trans h)

theorem stepsTo_injective {i j : Nat} (hi : i < (f.preorder x).size) (hj : j < (f.preorder x).size)
    (h : stepsTo (f.preorder x) i = stepsTo (f.preorder x) j) : i = j := by
  have hirrefl (steps : List (Nat × Nat)) : ¬ List.Lex StepLt steps steps :=
    List.lex_irrefl (fun step => irrefl step) steps
  rcases Nat.lt_trichotomy i j with hij | hij | hij
  · exact (hirrefl _ (h ▸ lex_stepsTo hij hj)).elim
  · exact hij
  · exact (hirrefl _ (h ▸ lex_stepsTo hij hi)).elim

end Forest

/-! ## Walks -/

/-- The site `b` lies right below `a` in the walk: `a` is what is listed where `b` says that its
parent is, and the node of `a` holds that of `b` where `b` says. -/
structure Site.Hangs (f : Forest s) (walk : Array Site) (a b : Site) : Prop where
  parent : ∃ i : Nat, b.parent = some i ∧ walk[i]? = some a
  below : a.Below f b

namespace Forest

variable {f : Forest s} {x y : NodeId}

theorem exists_hangs {i : Nat} {site : Site} (hi : 0 < i) (h : (f.preorder x)[i]? = some site) :
    ∃ j above, j < i ∧ site.parent = some j ∧ (f.preorder x)[j]? = some above ∧
      above.Hangs f (f.preorder x) site := by
  rcases eq_root_or_exists_above h with rfl | ⟨j, above, hj, habove, hmem⟩
  · -- The root is listed first, and no site twice.
    have hlt := (Array.getElem?_eq_some_iff.mp h).1
    refine (Nat.ne_of_gt hi (stepsTo_injective hlt (Nat.lt_trans hi hlt) ?_)).elim
    rw [stepsTo_of_parent_eq_none h rfl, stepsTo_of_parent_eq_none preorder_zero rfl]
  · obtain ⟨hparent, hbelow⟩ := mem_childSites.mp hmem
    exact ⟨j, above, hj, hparent, habove, ⟨j, hparent, habove⟩, hbelow⟩

theorem isChain_hangs_pathTo (f : Forest s) (x : NodeId) (i : Nat) :
    (pathTo (f.preorder x) i).IsChain (Site.Hangs f (f.preorder x)) := by
  induction i using Nat.strongRecOn with
  | ind i ih =>
    cases h : (f.preorder x)[i]? with
    | none =>
      rw [pathTo, h]
      exact .nil
    | some site =>
      rcases Nat.eq_zero_or_pos i with rfl | hi
      · obtain rfl := Option.some.inj (preorder_zero.symm.trans h)
        rw [pathTo_of_parent_eq_none h rfl]
        exact .singleton _
      · obtain ⟨j, above, hj, hparent, habove, hhangs⟩ := exists_hangs hi h
        rw [pathTo_of_parent_eq_some h hparent hj]
        refine List.isChain_append.mpr ⟨ih j hj, .singleton _, ?_⟩
        rintro a ha b ⟨⟩
        rw [(isChain_pathTo habove).2.1] at ha
        obtain rfl := Option.some.inj ha
        exact hhangs

theorem getLast?_pathTo (f : Forest s) (x : NodeId) (i : Nat) :
    (pathTo (f.preorder x) i).getLast? = (f.preorder x)[i]? := by
  cases h : (f.preorder x)[i]? with
  | none =>
    rw [pathTo, h]
    rfl
  | some site => exact (isChain_pathTo h).2.1

/-- The walk lists the occurrences in the subtree at `x`. -/
structure ListsOccurrences (f : Forest s) (x : NodeId) (walk : Array Site) : Prop where
  /-- After one turn for each site nothing is left on the stack. -/
  turns : f.walkTurn^[walk.size] ([⟨x, none, 0, 0⟩], #[]) = ([], walk)
  /-- It has the node first, then the subtrees of its children. -/
  recursion : walk.toList = f.sitesFrom 0 ⟨x, none, 0, 0⟩
  /-- Steps lead to a node if and only if it is listed with them. -/
  occurs : ∀ steps y, f.along x steps = some y ↔
    ∃ i site, walk[i]? = some site ∧ stepsTo walk i = steps ∧ site.node = y
  /-- No two sites have the same steps. -/
  distinct : ∀ i j, i < walk.size → j < walk.size → stepsTo walk i = stepsTo walk j → i = j
  /-- What comes first has the smaller steps. -/
  order : ∀ i j, i < j → j < walk.size → List.Lex StepLt (stepsTo walk i) (stepsTo walk j)
  /-- Every site but the first hangs from an earlier one. -/
  parent : ∀ i site, 0 < i → walk[i]? = some site →
    ∃ j above, j < i ∧ site.parent = some j ∧ walk[j]? = some above ∧ above.Hangs f walk site
  /-- A path starts at the root. -/
  path_head : ∀ i < walk.size, (pathTo walk i).head? = some ⟨x, none, 0, 0⟩
  /-- It ends at its site, and where there is none it is empty. -/
  path_last : ∀ i, (pathTo walk i).getLast? = walk[i]?
  /-- It goes from a site to one that hangs from it. -/
  path_chain : ∀ i, (pathTo walk i).IsChain (Site.Hangs f walk)

/-- A walk lists every occurrence once, and its paths lead there. -/
theorem listsOccurrences_preorder (f : Forest s) (x : NodeId) :
    f.ListsOccurrences x (f.preorder x) where
  turns := by
    have hturns := f.iterate_walkTurn [⟨x, none, 0, 0⟩] #[]
    rwa [List.map_singleton, total_cons, total_nil, Nat.add_zero, ← size_preorder] at hturns
  recursion := f.toList_preorder x
  occurs _ _ := exists_stepsTo_iff.symm
  distinct _ _ := stepsTo_injective
  order _ _ := lex_stepsTo
  parent _ _ := exists_hangs
  path_head _ hi := (isChain_pathTo (Array.getElem?_eq_getElem hi)).1
  path_last := f.getLast?_pathTo x
  path_chain := f.isChain_hangs_pathTo x

/-- A box with one crate in three places. -/
def crateBox : Forest Workshop.crates :=
  Workshop.fullCrate.push ⟨1, none,
    [.single none, .sequence [3, 3], .collection [0, 3], .single none]⟩

/-- What is in the crate is listed three times. -/
example : [5, 14, 24].map (stepsTo (crateBox.preorder 4)) =
      [[(1, 0), (1, 2)], [(1, 1), (1, 2)], [(2, 1), (1, 2)]] ∧
    [5, 14, 24].map (fun i => (pathTo (crateBox.preorder 4) i).map Site.node) =
      [[4, 3, 0], [4, 3, 0], [4, 3, 0]] := by
  decide +kernel

end Forest

end Espalier
