import Espalier.Proofs.AppendOnly
import Espalier.Proofs.FirstSite

/-!
# A hit is replaced in its place

A rule that searches takes one occurrence of a node for its hit and puts what it builds in the place
of that occurrence alone.  The nodes above it are copied, one for each on the path, and all their
other children are shared with the subject, also where the node of the hit occurs again below them.

What is built is new, and so is every copy above it.  A collection can hold neither of them yet, and
so none loses a slot.
-/

namespace Espalier

variable {s : Schema}

/-! ## Following a path -/

/-- The child at `position` of `member`. -/
def Node.child? {α : Type} (n : Node α) (member position : Nat) : Option α :=
  n.members[member]?.bind (·.children[position]?)

namespace Forest

variable {f f' : Forest s} {x y : NodeId}

/-- The node that is reached from `x` along the places of the sites. -/
def follow (f : Forest s) : NodeId → List Site → Option NodeId
  | x, [] => some x
  | x, site :: path => ((f.get x).child? site.member site.position).bind (f.follow · path)

theorem lt_of_child? {member position : Nat} (h : (f.get x).child? member position = some y) :
    y < x := by
  obtain ⟨m, hm, hy⟩ := Option.bind_eq_some_iff.mp h
  exact f.child_lt_of_mem (List.mem_flatMap_of_mem (List.mem_of_getElem? hm)
    (List.mem_of_getElem? hy))

theorem le_of_follow {path : List Site} (h : f.follow x path = some y) : y ≤ x := by
  induction path generalizing x with
  | nil =>
    obtain rfl := Option.some.inj h
    exact Nat.le_refl x
  | cons site path ih =>
    obtain ⟨z, hz, hy⟩ := Option.bind_eq_some_iff.mp h
    exact Nat.le_trans (ih hy) (Nat.le_of_lt (lt_of_child? hz))

/-- Where a path leads does not change when the forest grows. -/
theorem Extends.follow_eq (h : f.Extends f') {path : List Site} (hx : x < f.size) :
    f'.follow x path = f.follow x path := by
  induction path generalizing x with
  | nil => rfl
  | cons site path ih =>
    rw [follow, follow, h.get_eq x hx]
    refine Option.bind_congr fun y hy => ?_
    exact ih (Nat.lt_trans (lt_of_child? hy) hx)

/-- A chain of sites is followed from its first to its last one. -/
theorem follow_of_isChain {path : List Site} {top bottom : Site}
    (hchain : path.IsChain (Site.Below f)) (hhead : path.head? = some top)
    (hlast : path.getLast? = some bottom) : f.follow top.node path.tail = some bottom.node := by
  induction path generalizing top with
  | nil => cases hhead
  | cons site path ih =>
    obtain rfl := Option.some.inj hhead
    cases path with
    | nil =>
      obtain rfl := Option.some.inj hlast
      rfl
    | cons next path =>
      obtain ⟨hbelow, hrest⟩ := List.isChain_cons_cons.mp hchain
      have hnext : (f.get site.node).child? next.member next.position = some next.node :=
        Option.bind_eq_some_iff.mpr hbelow
      show ((f.get site.node).child? next.member next.position).bind (f.follow · path) =
        some bottom.node
      rw [hnext]
      exact ih hrest rfl (by simpa using hlast)

end Forest

/-! ## Nodes that differ in one place -/

/-- The nodes differ at most in the child at `position` of `member`, and both have one there or
neither. -/
structure Node.AgreeOff (n n' : Node NodeId) (member position : Nat) : Prop where
  kind_eq : n'.kind = n.kind
  value_eq : n'.value = n.value
  categories : n'.members.map Member.category = n.members.map Member.category
  lengths : n'.members.map (·.children.length) = n.members.map (·.children.length)
  child?_eq : ∀ m p, (m, p) ≠ (member, position) → n'.child? m p = n.child? m p

/-- A child that the member does not hold yet takes the place of the old one. -/
theorem children_replaceChild {m m' : Member NodeId} {i : Nat} {c d : NodeId}
    (hc : m.children[i]? = some c) (hd : d ∉ m.children) (h : Forest.replaceChild m i d = some m') :
    m'.category = m.category ∧ m'.children = m.children.set i d := by
  cases m with
  | single child =>
    cases child with
    | none => cases hc
    | some child =>
      obtain ⟨rfl, -⟩ : i = 0 ∧ child = c := by
        simpa [Member.children, List.getElem?_singleton] using hc
      obtain rfl := Option.some.inj h
      exact ⟨rfl, rfl⟩
  | sequence items =>
    have hi : i < items.length := (List.getElem?_eq_some_iff.mp hc).1
    rw [Forest.replaceChild, if_pos hi] at h
    obtain rfl := Option.some.inj h
    exact ⟨rfl, rfl⟩
  | collection items =>
    have hi : i < items.length := (List.getElem?_eq_some_iff.mp hc).1
    have hd' : d ∉ items.eraseIdx i := fun h => hd (List.mem_of_mem_eraseIdx h)
    rw [Forest.replaceChild, if_pos hi, if_neg hd'] at h
    obtain rfl := Option.some.inj h
    exact ⟨rfl, rfl⟩

theorem map_set_eq {α β : Type} {g : α → β} {xs : List α} {i : Nat} {a a' : α}
    (ha : xs[i]? = some a) (hg : g a' = g a) : (xs.set i a').map g = xs.map g := by
  obtain ⟨hi, rfl⟩ := List.getElem?_eq_some_iff.mp ha
  rw [List.map_set, hg, ← List.map_set, List.set_getElem_self]

theorem agreeOff_set {n : Node NodeId} {m m' : Member NodeId} {member position : Nat} {d : NodeId}
    (hm : n.members[member]? = some m) (hcategory : m'.category = m.category)
    (hchildren : m'.children = m.children.set position d) :
    n.AgreeOff { n with members := n.members.set member m' } member position where
  kind_eq := rfl
  value_eq := rfl
  categories := map_set_eq hm hcategory
  lengths := map_set_eq hm (by rw [hchildren, List.length_set])
  child?_eq a p hne := by
    show (n.members.set member m')[a]?.bind (·.children[p]?) = n.members[a]?.bind (·.children[p]?)
    by_cases ha : member = a
    · subst ha
      have hp : position ≠ p := fun hp => hne (by rw [hp])
      have hlt : member < n.members.length := (List.getElem?_eq_some_iff.mp hm).1
      rw [List.getElem?_set_self hlt, hm]
      show m'.children[p]? = m.children[p]?
      rw [hchildren, List.getElem?_set_ne hp]
    · rw [List.getElem?_set_ne ha]

theorem child?_set {n : Node NodeId} {m m' : Member NodeId} {member position : Nat} {c d : NodeId}
    (hm : n.members[member]? = some m) (hc : m.children[position]? = some c)
    (hchildren : m'.children = m.children.set position d) :
    Node.child? { n with members := n.members.set member m' } member position = some d := by
  have hmember : member < n.members.length := (List.getElem?_eq_some_iff.mp hm).1
  have hposition : position < m.children.length := (List.getElem?_eq_some_iff.mp hc).1
  show (n.members.set member m')[member]?.bind (·.children[position]?) = some d
  rw [List.getElem?_set_self hmember]
  show m'.children[position]? = some d
  rw [hchildren, List.getElem?_set_self hposition]

/-! ## Rebuilding along a path -/

namespace Grow

variable {ε α β : Type} {f f' : Forest s}

theorem exists_of_bind_eq_ok {x : Grow s ε α} {g : α → Grow s ε β} {b : β}
    (h : (x >>= g) f = .ok b f') : ∃ a f₁, x f = .ok a f₁ ∧ g a f₁ = .ok b f' := by
  cases hx : x f with
  | ok a f₁ =>
    refine ⟨a, f₁, rfl, ?_⟩
    simpa [Bind.bind, EStateM.bind, hx] using h
  | error e f₁ => simp [Bind.bind, EStateM.bind, hx] at h

theorem eq_ok_of_orFault {x : Grow s SchemaError α} {a : α} (h : orFault x f = .ok a f') :
    x f = .ok a f' := by
  cases hx : x f with
  | ok a₁ f₁ => simpa [orFault, EStateM.adaptExcept, hx] using h
  | error e f₁ => simp [orFault, EStateM.adaptExcept, hx] at h

end Grow

namespace Forest

/-- In `f'`, the tree at `y` is that at the first node of the path in `f`, with `t` in place of the
last node of the path. -/
structure Replaces (f f' : Forest s) (path : List Site) (y t : NodeId) : Prop where
  reaches : f'.follow y path.tail = some t
  ancestors : ∀ (i : Nat) (above below : Site), path[i]? = some above → path[i + 1]? = some below →
    ∃ z, f'.follow y (path.tail.take i) = some z ∧
      (f.get above.node).AgreeOff (f'.get z) below.member below.position

variable {f f₁ f₂ f' : Forest s} {t y z : NodeId}

/-- Of a node that takes another child, only the member of the child changes. -/
theorem exists_of_withChild_eq_ok {id child : NodeId} {member position : Nat} {n : Node NodeId}
    (h : f.withChild id member position child = .ok n) :
    ∃ m m', (f.get id).members[member]? = some m ∧ replaceChild m position child = some m' ∧
      n = { f.get id with members := (f.get id).members.set member m' } := by
  unfold withChild at h
  dsimp only at h
  split at h
  next m' hm' =>
    obtain ⟨m, hm, hreplace⟩ := Option.bind_eq_some_iff.mp hm'
    exact ⟨m, m', hm, hreplace, (Except.ok.inj h).symm⟩
  next => cases h

theorem replaces_singleton (site : Site) : f.Replaces f' [site] t t := by
  constructor
  · rfl
  · intro i above below _ hbelow
    simp at hbelow

/-- One more node above the path. -/
theorem Replaces.cons {above below : Site} {path : List Site}
    (h : f.Replaces f₂ (below :: path) z t) (hext : f₂.Extends f') (hz : z < f₂.size)
    (hagree : (f.get above.node).AgreeOff (f'.get y) below.member below.position)
    (hchild : (f'.get y).child? below.member below.position = some z) :
    f.Replaces f' (above :: below :: path) y t := by
  have hfollow (rest : List Site) : f'.follow y (below :: rest) = f₂.follow z rest := by
    rw [follow, hchild]
    exact hext.follow_eq hz
  constructor
  · rw [List.tail_cons, hfollow]
    exact h.reaches
  · intro i a b ha hb
    cases i with
    | zero =>
      obtain rfl := Option.some.inj ha
      obtain rfl := Option.some.inj hb
      exact ⟨y, rfl, hagree⟩
    | succ i =>
      obtain ⟨w, hw, hagree'⟩ := h.ancestors i a b ha hb
      refine ⟨w, ?_, ?_⟩
      · rw [List.tail_cons, List.take_succ_cons, hfollow]
        exact hw
      · rw [hext.get_eq w (Nat.lt_of_le_of_lt (le_of_follow hw) hz)]
        exact hagree'

/-- What is new stands alone in the place of the last node of the path. -/
theorem replaces_of_rebuildAlong {path : List Site} {top : Site} (hf₁ : f₁.WellFormed)
    (hext : f.Extends f₁) (ht : f.New f₁ t) (hchain : path.IsChain (Site.Below f))
    (hhead : path.head? = some top) (htop : top.node < f.size)
    (hrun : (rebuildAlong path t : Grow s RunError NodeId) f₁ = .ok y f') :
    f.Replaces f' path y t := by
  induction path generalizing top y f' with
  | nil => cases hhead
  | cons above path ih =>
    obtain rfl := Option.some.inj hhead
    cases path with
    | nil =>
      obtain ⟨rfl, rfl⟩ : t = y ∧ f₁ = f' := by simpa [rebuildAlong, pure, EStateM.pure] using hrun
      exact replaces_singleton above
    | cons below path =>
      obtain ⟨hbelow, hrest⟩ := List.isChain_cons_cons.mp hchain
      obtain ⟨z, f₂, hz, hy⟩ := Grow.exists_of_bind_eq_ok hrun
      obtain ⟨hext₂, hf₂, hnew⟩ := (yields_rebuildAlong_new (E := fun _ => True) upheld_wellFormed
        (fun _ => trivial) (below :: path) hext hf₁ ht).of_ok hz
      have hparts := ih hrest rfl (Nat.lt_trans hbelow.node_lt htop) hz
      replace hy := Grow.eq_ok_of_orFault hy
      obtain ⟨hext', -, hmade, -⟩ := (Grow.Yields.withChild (E := fun _ => True) upheld_wellFormed
        hf₂ (fun _ _ => trivial) fun _ _ _ _ => trivial).of_ok hy
      obtain ⟨m, m', hm, hreplace, hget⟩ := exists_of_withChild_eq_ok hmade
      rw [(hext.trans hext₂).get_eq above.node htop] at hm hget
      obtain ⟨k, hk, hc⟩ := hbelow
      obtain rfl := Option.some.inj (hm.symm.trans hk)
      have hlow : ∀ c ∈ m.children, c < f.size := by
        intro c hc
        exact Nat.lt_trans (f.child_lt_of_mem
          (List.mem_flatMap_of_mem (List.mem_of_getElem? hm) hc)) htop
      have hnot : z ∉ m.children := fun hmem => Nat.not_lt.mpr hnew.size_le (hlow z hmem)
      obtain ⟨hcategory, hchildren⟩ := children_replaceChild hc hnot hreplace
      refine hparts.cons hext' hnew.lt_size ?_ ?_
      · rw [hget]
        exact agreeOff_set hm hcategory hchildren
      · rw [hget]
        exact child?_set hm hc hchildren

end Forest

/-! ## Hits -/

/-- A root that its plan has keyed first is coupled to the subject itself, with the way that it has
decided on, and its links are followed before all else. -/
theorem Scene.exists_decided_of_searchFor {scene : Scene s} (hw : scene.WellFormed)
    {root : PatternId} {plan : Plan} (hroot : (plan.scope 0).isKeyer .root = true) {subject : Key}
    {view : View} {c : Couplings} (h : scene.searchFor root plan subject view = .ok (some c)) :
    c.get? root = some subject ∧ ∃ (d : Decided (Fin root)) (pr : Progress root),
      scene.Decides root subject d.links d.path ∧
      (∀ sites, d.path = some sites → c.path? root = some sites) ∧
      (d.links.foldlM (scene.follow plan (Nat.le_refl root) 0)
        ((Progress.start.coupled root subject).recordPath root d.path)).Gives pr := by
  rw [searchFor] at h
  obtain ⟨pr, pr', hkey, hrestrict, rfl⟩ := gives_attempt.mp (Walk.gives_of_solve_eq_some h)
  obtain ⟨hruns, -, -⟩ := gives_restrict.mp hrestrict
  rcases (gives_key hw).mp hkey with ⟨hk, -⟩ | ⟨-, -, d, pr₁, hd, -, hlinks, rfl⟩
  · rw [hroot] at hk
    cases hk
  · -- What the root has recorded first stays to the end of the attempt.
    have hext : ((Progress.start.coupled root subject).recordPath root d.path).Extends pr' :=
      ((extends_foldlM (fun l _ _ _ => extends_follow hw) hlinks).trans (.close _ 0 d)).trans
        (extends_foldlM (fun run _ _ _ => extends_keyRun hw) hruns)
    have hget : ((Progress.start.coupled root subject : Progress root).recordPath root
        d.path).couplings.get? root = some subject := by
      rw [Progress.get?_recordPath, Progress.get?_coupled, if_pos rfl]
    refine ⟨hext.get? hget, d, pr₁, hd, ?_, hlinks⟩
    intro sites hsites
    refine (hext.path? (Option.isSome_of_eq_some hget)).trans ?_
    rw [hsites]
    exact Progress.path?_recordPath_self _ _ sites

/-- The root of a search for any site has taken one of the sites below the subject. -/
theorem Scene.exists_site_of_searchFor {scene : Scene s} (hw : scene.WellFormed) {root : PatternId}
    {terminus : Fin root} (hagent : (scene.patterns.pattern root).agent = .stuff terminus none)
    {x : NodeId} {c : Couplings}
    (h : scene.searchFor root (.amid scene.patterns [] root) (.node x) [] = .ok (some c)) :
    c.get? root = some (.node x) ∧ ∃ (i : Nat) (site : Site),
      (scene.forest.preorder x)[i]? = some site ∧
        c.path? root = some (pathTo (scene.forest.preorder x) i) := by
  obtain ⟨hkey, d, pr, ⟨-, hoffers⟩, hpath, -⟩ :=
    exists_decided_of_searchFor hw (isKeyer_root scene.patterns root) h
  rw [hagent] at hoffers
  obtain ⟨i, site, hsite, -, hsites⟩ := hoffers
  exact ⟨hkey, i, site, hsite, hpath _ hsites⟩

namespace Workshop

variable {shop : Workshop s} {plan : RulePlan} {view : View} {p : PatternId}

/-- A pattern for any site is built by building what it looks for and putting that at the end of the
path. -/
theorem buildFinal_stuff {terminus : Fin p}
    (hagent : (shop.patterns.pattern p).agent = .stuff terminus none)
    {x : NodeId} (hkey : view.get? p = some (.node x)) {path : List Site}
    (hpath : view.path? p = some path) (hhead : path.head?.map Site.node = some x) :
    buildFinal (shop.build plan view) id p none = (do
      let bottom ← buildFinal (shop.build plan view) id terminus.val none
      rebuildAlong path bottom) := by
  have hbuild : shop.build plan view p none = (do
      let bottom ← buildFinal (shop.build plan view) id terminus.val none
      return .node (← rebuildAlong path bottom)) := by
    rw [build]
    simp only [hagent, hkey, hpath, Option.some_or]
    exact buildBelow_of_head hhead
  rw [buildFinal, hbuild]
  simp only [bind_assoc, pure_bind, Grow.single, bind_pure]

end Workshop

/-- The root of a rule that searches looks for the pattern right below it. -/
theorem PatternSet.WellFormed.get_root_search {ps ps' : PatternSet s} (hps : ps.WellFormed)
    {search root : PatternId} {replace : Option PatternId}
    (h : (Draft.wrap search replace .search).run ps = .ok root ps') :
    ps'.get root = ⟨Schema.nodeKind, .stuff ps.size none⟩ := by
  obtain ⟨-, -, -, hroot, -⟩ := hps.wrap_eq h
  obtain ⟨-, -, heq | ⟨-, hget⟩⟩ := hps.get_wrap h
  · rw [hroot] at heq
    exact absurd heq (Nat.succ_ne_self _)
  · rw [hroot]
    exact hget

namespace Rule

variable {name : String} {patterns : PatternSet s} {search : PatternId} {replace : Option PatternId}
  {r : Rule s}

/-- A rule that searches changes its subject at the hit only.  The path that its root has recorded
leads from the subject to an occurrence in it.  In the result, what was built for the hit stands in
the place of that occurrence, and all else that the nodes above it hold is what it was. -/
theorem replaces_of_rebuild (hs : s.WellFormed) (hps : patterns.WellFormed)
    (hr : Rule.make name patterns search replace .search = .ok r) {f : Forest s} (hf : f.WellFormed)
    {x : NodeId} (hx : x < f.size) {watermark : Nat} {c : Couplings}
    (hfind : Scene.search ⟨f, r.patterns, watermark⟩ r.plan.search (.node x) [] = .ok (some c))
    {limits : Limits} {y : NodeId} {f' : Forest s}
    (hbuild : buildFinal (Workshop.build ⟨r.patterns, r.name, limits⟩ r.plan [c]) id r.plan.root
      none f = .ok y f') :
    ∃ (i : Nat) (site : Site) (terminus : PatternId) (t : NodeId) (f₁ : Forest s),
      (f.preorder x)[i]? = some site ∧
      c.path? r.plan.root = some (pathTo (f.preorder x) i) ∧
      (pathTo (f.preorder x) i).head? = some ⟨x, none, 0, 0⟩ ∧
      f.follow x (pathTo (f.preorder x) i).tail = some site.node ∧
      r.patterns.get r.plan.root = ⟨Schema.nodeKind, .stuff terminus none⟩ ∧
      buildFinal (Workshop.build ⟨r.patterns, r.name, limits⟩ r.plan [c]) id terminus none f =
        .ok t f₁ ∧
      f.Extends f₁ ∧ f.New f₁ t ∧ f₁.Extends f' ∧
      f.Replaces f' (pathTo (f.preorder x) i) y t := by
  obtain ⟨root, hwrap, hplan⟩ := exists_wrap_of_make hr
  have hget := hps.get_root_search hwrap
  obtain ⟨terminus, hterminus, hagent⟩ := PatternSet.exists_agent_stuff hget
  have hw : Scene.WellFormed ⟨f, r.patterns, watermark⟩ := ⟨hs, hf.wellShaped, (hps.wrap hwrap).1⟩
  have hroot : r.plan.root = root := by rw [hplan, RulePlan.root_make]
  rw [hroot] at hbuild ⊢
  have hsearch : Scene.searchFor ⟨f, r.patterns, watermark⟩ root (.amid r.patterns [] root)
      (.node x) [] = .ok (some c) := by
    rw [hplan, RulePlan.search_make] at hfind
    exact hfind
  obtain ⟨hkey, i, site, hsite, hpath⟩ := Scene.exists_site_of_searchFor hw hagent hsearch
  obtain ⟨hhead, hlast, hchain⟩ := Forest.isChain_pathTo hsite
  rw [Workshop.buildFinal_stuff hagent (by rw [View.get?_singleton, hkey])
    (by rw [View.path?_singleton, hpath]) (by rw [hhead]; rfl)] at hbuild
  obtain ⟨t, f₁, ht, hrun⟩ := Grow.exists_of_bind_eq_ok hbuild
  have hbare : (default : Node NodeId).Fits s :=
    fits_default hs (Nat.zero_lt_of_lt (hf.get hx).kind_lt)
  obtain ⟨hext, hf₁, hnew⟩ :=
    (Workshop.new_buildFinal _ hbare r.plan [c] terminus.val hf).of_ok ht
  obtain ⟨hext', -, -⟩ := (yields_rebuildAlong_new (E := fun _ => True) Forest.upheld_wellFormed
    (fun _ => trivial) _ hext hf₁ hnew).of_ok hrun
  refine ⟨i, site, terminus.val, t, f₁, hsite, hpath, hhead,
    Forest.follow_of_isChain hchain hhead hlast, ?_, ht, hext, hnew, hext', ?_⟩
  · rw [hterminus]
    exact hget
  · exact Forest.replaces_of_rebuildAlong hf₁ hext hnew hchain hhead hx hrun

/-- A list that holds the list with the same ends twice, once of it inside of another list. -/
def sharedLists : Forest Scene.lists := nestedLists.push ⟨1, none, [.sequence [4, 3]]⟩

/-- The rule that puts a copy of its ends in the place of such a list. -/
def keepEnd : Rule Scene.lists where
  name := "keep end"
  patterns := (sameEnds.push ⟨0, .overlay 2 0⟩).push ⟨0, .stuff 3 none⟩
  search := 2
  replace := some 0
  mode := .search
  plan := RulePlan.make ((sameEnds.push ⟨0, .overlay 2 0⟩).push ⟨0, .stuff 3 none⟩) 4 []

/-- What the rule finds in it. -/
def keepEndHit : Couplings where
  keys := [(1, .run true [0]), (0, .node 1), (2, .node 3), (3, .node 3), (4, .node 5)]
  paths := [(4, [⟨5, none, 0, 0⟩, ⟨4, some 0, 0, 0⟩, ⟨3, some 1, 0, 0⟩])]

/-- The first occurrence, two levels down, is replaced by a new node, and the second one stays. -/
theorem replaces_of_rebuild_sharedLists :
    keepEnd.find sharedLists 5 = .ok (some keepEndHit) ∧
      ∃ t f', buildFinal (Workshop.build ⟨keepEnd.patterns, keepEnd.name, .standard⟩ keepEnd.plan
          [keepEndHit]) id keepEnd.plan.root none sharedLists = .ok 8 f' ∧
        f'.follow 8 [⟨4, some 0, 0, 0⟩, ⟨3, some 1, 0, 0⟩] = some t ∧ sharedLists.size ≤ t ∧
        (f'.get 8).child? 0 1 = some 3 := by
  have hfind : keepEnd.find sharedLists 5 = .ok (some keepEndHit) := by decide +kernel
  have hmake : Rule.make "keep end" sameEnds 2 (some 0) .search = .ok keepEnd := rfl
  have hshared : sharedLists.WellFormed :=
    wellFormed_nestedLists.push (Forest.check_eq_ok_iff.mp (rfl : nestedLists.check _ = .ok ())).1
  have hrun : EStateM.run' (buildFinal (Workshop.build ⟨keepEnd.patterns, keepEnd.name, .standard⟩
      keepEnd.plan [keepEndHit]) id keepEnd.plan.root none) sharedLists = some 8 := by
    decide +kernel
  refine ⟨hfind, ?_⟩
  cases hbuild : buildFinal (Workshop.build ⟨keepEnd.patterns, keepEnd.name, .standard⟩ keepEnd.plan
      [keepEndHit]) id keepEnd.plan.root none sharedLists with
  | error e f' =>
    unfold EStateM.run' EStateM.run at hrun
    rw [hbuild] at hrun
    cases hrun
  | ok y f' =>
    unfold EStateM.run' EStateM.run at hrun
    rw [hbuild] at hrun
    obtain rfl : y = 8 := Option.some.inj hrun
    obtain ⟨i, site, -, t, f₁, -, hpath, -, -, -, -, -, hnew, -, hreplaces⟩ :=
      replaces_of_rebuild (Schema.wellFormed_base.define Scene.define_lists) wellFormed_sameEnds
        hmake hshared (by decide) hfind hbuild
    rw [show keepEnd.plan.root = 4 from RulePlan.root_make _ _ _] at hpath
    have hsites : pathTo (sharedLists.preorder 5) i =
        [⟨5, none, 0, 0⟩, ⟨4, some 0, 0, 0⟩, ⟨3, some 1, 0, 0⟩] := (Option.some.inj hpath).symm
    rw [hsites] at hreplaces
    obtain ⟨z, hz, hagree⟩ := hreplaces.ancestors 0 _ _ rfl rfl
    obtain rfl := Option.some.inj hz
    refine ⟨t, f', rfl, hreplaces.reaches, hnew.size_le, ?_⟩
    exact hagree.child?_eq 0 1 (by decide)

end Rule

end Espalier
