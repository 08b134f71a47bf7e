import Espalier.Proofs.Occurrence
import Espalier.Proofs.Order
import Espalier.Proofs.Recording

/-!
# What the couplings of a search say

A search returns one key for each pattern that it has bound.  Whatever pattern it is, its key and
the keys of the patterns that it refers to fit together: wherever the pattern puts another one, the
subject has there what that other one stands for, up to structural equality.  Only one of the links
to a pattern is ever followed; that the others agree with it is what the second pass makes sure of.
-/

namespace Espalier

variable {s : Schema}

/-! ## Patterns and what they stand for -/

section Standing

variable {α : Type} (f : Forest s) (σ : α → Option Key)

/-- The pattern `q` stands for a node that is equal to `y`. -/
def StandsFor (q : α) (y : NodeId) : Prop :=
  ∃ x, σ q = some (.node x) ∧ f.compare x y = .eq

/-- The nodes that the patterns of a container stand for, in their order. -/
def standing (qs : List α) : List NodeId :=
  qs.flatMap fun q => ((σ q).map Key.nodes).getD []

/-- What the patterns of a member stand for makes up the member of a node: in a sequence element by
element, in a collection as a multiset. -/
def MemberStandsFor : Member α → Member NodeId → Prop
  | .single none, .single _ => True
  | .single (some q), .single (some y) => StandsFor f σ q y
  | .sequence qs, .sequence ys =>
    (∀ q ∈ qs, (σ q).isSome = true) ∧
      List.Forall₂ (fun x y => f.compare x y = .eq) (standing σ qs) ys
  | .collection qs, .collection ys =>
    (∀ q ∈ qs, (σ q).isSome = true) ∧
      Multiset.Rel (fun x y => f.compare x y = .eq) (standing σ qs : Multiset NodeId)
        (ys : Multiset NodeId)
  | _, _ => False

end Standing

namespace Scene

/-- The agent of the pattern `p`, held against the node `x`, agrees with what other patterns stand
for and with the way down that is on record for it. -/
def Accords (scene : Scene s) (σ : PatternId → Option Key) (way : Option (List Site))
    {p : PatternId} (x : NodeId) : Agent (Fin p) → Prop
  | .standard value members =>
    (value.isSome → (scene.forest.get x).value = value) ∧
      List.Forall₂ (MemberStandsFor scene.forest fun q => σ q.val) members
        ((scene.forest.get x).members.take members.length)
  | .star _ => False
  | .stuff terminus _ =>
    ∃ sites bottom, way = some sites ∧ sites.head?.map Site.node = some x ∧
      sites.IsChain (Site.Below scene.forest) ∧ sites.getLast? = some bottom ∧
      StandsFor scene.forest σ terminus.val bottom.node
  | .anyNode terminus =>
    ∃ top bottom, way = some [top, bottom] ∧ top.node = x ∧ top.Below scene.forest bottom ∧
      StandsFor scene.forest σ terminus.val bottom.node
  | .overlay through _ | .slave through _ => StandsFor scene.forest σ through.val x
  | .greenGrass through => x < scene.watermark ∧ StandsFor scene.forest σ through.val x
  | .notMatch _ => True
  | .matchAll qs => ∀ q ∈ qs, StandsFor scene.forest σ q.val x
  | .matchAny qs => ∃ q ∈ qs, StandsFor scene.forest σ q.val x

/-- A star stands for a run of nodes of its kind, and any other pattern for a node of its kind that
its agent accords with. -/
def AccordsWith (scene : Scene s) (σ : PatternId → Option Key) (way : Option (List Site))
    (p : PatternId) : Key → Prop
  | .node x => scene.patterns.isStar p = false ∧
      s.isSubkind (scene.forest.kind x) (scene.patterns.pattern p).kind = true ∧
      scene.Accords σ way x (scene.patterns.pattern p).agent
  | .run _ items => scene.patterns.isStar p = true ∧
      ∀ x ∈ items, s.isSubkind (scene.forest.kind x) (scene.patterns.pattern p).kind = true

end Scene

/-! ## Keys that compare equal -/

namespace Key

variable {f : Forest s} {key : Key} {x : NodeId}

theorem compare_self (f : Forest s) (key : Key) : key.compare f key = .eq := by
  cases key with
  | node x => exact f.compare_self x
  | run ordered items =>
    rw [compare, Ordering.then_eq_eq]
    exact ⟨by cases ordered <;> rfl, compareRun_self f.compare_self ordered⟩

theorem exists_of_compare_node (h : key.compare f (.node x) = .eq) :
    ∃ y, key = .node y ∧ f.compare y x = .eq := by
  cases key with
  | node y => exact ⟨y, rfl, h⟩
  | run ordered items => cases h

theorem exists_of_compare_run {ordered : Bool} {items : List NodeId}
    (h : key.compare f (.run ordered items) = .eq) :
    ∃ ys, key = .run ordered ys ∧ f.compareRuns ordered ys items = .eq := by
  cases key with
  | node y => cases h
  | run ordered' ys =>
    rw [compare, Ordering.then_eq_eq] at h
    have heq : ordered' = ordered := by
      revert h
      cases ordered' <;> cases ordered <;> simp [Ord.compare]
    subst heq
    exact ⟨ys, rfl, h.2⟩

theorem rel_of_compare {key' : Key} (h : key.compare f key' = .eq) :
    Multiset.Rel (fun x y => f.compare x y = .eq) (key.nodes : Multiset NodeId)
      (key'.nodes : Multiset NodeId) := by
  cases key' with
  | node x =>
    obtain ⟨y, rfl, hy⟩ := exists_of_compare_node h
    exact rel_of_forall₂ (.cons hy .nil)
  | run ordered items =>
    obtain ⟨ys, rfl, hys⟩ := exists_of_compare_run h
    exact rel_of_compareRun hys

end Key

/-! ## Links whose targets stand for their keys -/

/-- The target of the link is bound to a key that is equal to that of the link. -/
def DecidedLink.Stands {α : Type} (f : Forest s) (σ : α → Option Key) (l : DecidedLink α) : Prop :=
  ∃ key, σ l.target = some key ∧ key.compare f l.key = .eq

section Shares

variable {α : Type} {f : Forest s} {σ : α → Option Key} {isStar : α → Bool} {slot : Nat} {q : α}
  {qs : List α} {ys : List NodeId} {links : List (DecidedLink α)} {l : DecidedLink α}

theorem DecidedLink.Stands.standsFor (h : l.Stands f σ) {y : NodeId} (hy : l.key = .node y) :
    StandsFor f σ l.target y := by
  obtain ⟨key, hkey, heq⟩ := h
  rw [hy] at heq
  obtain ⟨x, rfl, hx⟩ := Key.exists_of_compare_node heq
  exact ⟨x, hkey, hx⟩

theorem DecidedLink.Stands.isSome (h : l.Stands f σ) : (σ l.target).isSome = true := by
  obtain ⟨key, hkey, -⟩ := h
  rw [hkey]
  rfl

theorem standing_cons_of_eq {key : Key} (hkey : σ q = some key) :
    standing σ (q :: qs) = key.nodes ++ standing σ qs := by
  simp [standing, hkey]

/-- The parts of a sequence are equal to what its patterns stand for, one after the other. -/
theorem SequenceSplit.memberStandsFor (h : SequenceSplit isStar slot qs ys links)
    (hl : ∀ l ∈ links, l.Stands f σ) : MemberStandsFor f σ (.sequence qs) (.sequence ys) := by
  induction h with
  | nil => exact ⟨by simp, .nil⟩
  | @star slot q qs run ys links hq h ih =>
    simp only [List.mem_cons, forall_eq_or_imp] at hl
    obtain ⟨hbound, hrest⟩ := ih hl.2
    obtain ⟨key, hkey, heq⟩ := hl.1
    obtain ⟨xs, rfl, hxs⟩ := Key.exists_of_compare_run heq
    refine ⟨?_, ?_⟩
    · simp only [List.mem_cons, forall_eq_or_imp]
      exact ⟨hl.1.isSome, hbound⟩
    · rw [standing_cons_of_eq hkey]
      exact List.rel_append (forall₂_of_compareRun hxs) hrest
  | @one slot q qs y ys links hq h ih =>
    simp only [List.mem_cons, forall_eq_or_imp] at hl
    obtain ⟨hbound, hrest⟩ := ih hl.2
    obtain ⟨x, hkey, hxy⟩ := hl.1.standsFor rfl
    refine ⟨?_, ?_⟩
    · simp only [List.mem_cons, forall_eq_or_imp]
      exact ⟨hl.1.isSome, hbound⟩
    · rw [standing_cons_of_eq hkey]
      exact .cons hxy hrest

theorem rel_standing (hl : ∀ l ∈ links, l.Stands f σ) :
    Multiset.Rel (fun x y => f.compare x y = .eq)
      (standing σ (links.map DecidedLink.target) : Multiset NodeId)
      (links.flatMap (fun l => l.key.nodes) : List NodeId) := by
  induction links with
  | nil => exact .zero
  | cons l links ih =>
    simp only [List.mem_cons, forall_eq_or_imp] at hl
    obtain ⟨key, hkey, heq⟩ := hl.1
    rw [List.map_cons, standing_cons_of_eq hkey, List.flatMap_cons, ← Multiset.coe_add,
      ← Multiset.coe_add]
    exact (Key.rel_of_compare heq).add (ih hl.2)

theorem map_target_containerLinks : (containerLinks isStar slot qs).map Link.target = qs := by
  induction qs generalizing slot with
  | nil => rfl
  | cons q qs ih => rw [containerLinks_cons, List.map_cons, ih]

/-- The elements of a collection are equal, as a multiset, to what its patterns stand for. -/
theorem CollectionShare.memberStandsFor (h : CollectionShare isStar slot qs ys links)
    (hl : ∀ l ∈ links, l.Stands f σ) : MemberStandsFor f σ (.collection qs) (.collection ys) := by
  have htargets : (links.map DecidedLink.target).Perm qs := by
    have hperm := h.declared_perm.map Link.target
    rwa [List.map_map, map_target_containerLinks] at hperm
  refine ⟨fun q hq => ?_, ?_⟩
  · obtain ⟨l, hmem, rfl⟩ := List.mem_map.mp (htargets.mem_iff.mpr hq)
    exact (hl l hmem).isSome
  · have hrel := rel_standing hl
    rw [Multiset.coe_eq_coe.mpr h.nodes_perm] at hrel
    have hstanding : (standing σ (links.map DecidedLink.target)).Perm (standing σ qs) :=
      htargets.flatMap_right _
    rwa [Multiset.coe_eq_coe.mpr hstanding] at hrel

theorem MemberShare.memberStandsFor {m : Member α} {x : Member NodeId}
    (h : MemberShare isStar slot m x links) (hl : ∀ l ∈ links, l.Stands f σ) :
    MemberStandsFor f σ m x := by
  unfold MemberShare at h
  split at h
  · trivial
  · subst h
    exact (hl _ List.mem_cons_self).standsFor rfl
  · exact h.memberStandsFor hl
  · exact h.memberStandsFor hl
  · exact h.elim

theorem MembersShare.memberStandsFor {ms : List (Member α)} {xs : List (Member NodeId)}
    (h : MembersShare isStar slot ms xs links) (hl : ∀ l ∈ links, l.Stands f σ) :
    List.Forall₂ (MemberStandsFor f σ) ms xs := by
  induction h with
  | nil => exact .nil
  | cons hm _ ih =>
    simp only [List.mem_append] at hl
    exact .cons (hm.memberStandsFor fun l h => hl l (.inl h)) (ih fun l h => hl l (.inr h))

end Shares

namespace Scene

variable {scene : Scene s} {root p : PatternId}

/-- A pattern accords with a key if the links that it decides on have targets that stand for
theirs. -/
theorem Decides.accordsWith (hw : scene.WellFormed) {σ : PatternId → Option Key}
    {way path : Option (List Site)} {key : Key} {links : List (DecidedLink (Fin p))}
    (h : scene.Decides p key links path) (hway : ∀ sites, path = some sites → way = some sites)
    (hl : ∀ l ∈ links, l.kind ≠ .abnormal → l.Stands scene.forest fun q => σ q.val) :
    scene.AccordsWith σ way p key := by
  have hstar := scene.patterns.isStar_pattern p
  cases key with
  | run ordered items =>
    obtain ⟨restriction, hagent, hkinds, -⟩ := h
    rw [hagent] at hstar
    exact ⟨hstar.symm, hkinds⟩
  | node x =>
    obtain ⟨hkind, h⟩ := h
    have hfits := hw.patterns.fits hw.schema p
    have hnode {slot : Nat} {q : Fin p} {y : NodeId} (hmem : ⟨slot, q, .normal, .node y⟩ ∈ links) :
        StandsFor scene.forest σ q.val y := by
      obtain ⟨x, hx⟩ := (hl _ hmem (by simp)).standsFor rfl
      exact ⟨x, hx⟩
    rw [AccordsWith, ← hstar]
    generalize (scene.patterns.pattern p).agent = agent at h hfits
    have hno : agent.isStar = false := by
      cases agent with
      | star restriction => exact h.elim
      | _ => rfl
    refine ⟨hno, hkind, ?_⟩
    cases agent with
    | standard value members =>
      obtain ⟨hvalue, hshare, -⟩ := h
      refine ⟨hvalue, ?_⟩
      rw [hfits.2.1.length_eq]
      exact hshare.memberStandsFor fun l hmem => hl l hmem (hshare.kind_ne_abnormal hfits.2.2 hmem)
    | star restriction => exact h
    | stuff terminus restriction =>
      obtain ⟨i, site, hsite, rfl, rfl⟩ := h
      obtain ⟨hhead, hlast, hchain⟩ := Forest.isChain_pathTo hsite
      refine ⟨_, site, hway _ rfl, by rw [hhead]; rfl, hchain, hlast, hnode List.mem_cons_self⟩
    | anyNode terminus =>
      obtain ⟨i, site, hsite, hparent, rfl, rfl⟩ := h
      obtain ⟨-, above, habove, hmem⟩ := Forest.lt_of_parent_eq_some hsite hparent
      obtain rfl := Option.some.inj (Forest.preorder_zero.symm.trans habove)
      refine ⟨_, site, ?_, rfl, (Forest.mem_childSites.mp hmem).2, hnode List.mem_cons_self⟩
      rw [← Forest.pathTo_child hsite hparent]
      exact hway _ rfl
    | greenGrass through =>
      obtain ⟨hold, rfl, -⟩ := h
      exact ⟨hold, hnode List.mem_cons_self⟩
    | notMatch q => trivial
    | matchAll qs =>
      obtain ⟨rfl, -⟩ := h
      intro q hq
      obtain ⟨slot, hslot⟩ := List.mem_iff_getElem?.mp hq
      refine hnode (List.mem_map.mpr ⟨(q, slot), ?_, rfl⟩)
      exact List.mem_zipIdx_iff_getElem?.mpr hslot
    | matchAny qs =>
      obtain ⟨slot, q, hq, rfl, -⟩ := h
      exact ⟨q, List.mem_of_getElem? hq, hnode List.mem_cons_self⟩
    | overlay through above =>
      obtain ⟨rfl, -⟩ := h
      exact hnode List.mem_cons_self
    | slave through root =>
      obtain ⟨rfl, -⟩ := h
      exact hnode List.mem_cons_self

/-! ## The couplings of a search -/

/-- What a pattern meets is equal to what it stands for once the second pass is through. -/
theorem exists_of_meets {pr : Progress root} {view : View} {q : PatternId} {key : Key}
    (hresiduals : ∀ r ∈ pr.residuals, view.restrict scene.forest pr.couplings r.1 r.2 = .ok ())
    (hq : pr.Meets [] q key) :
    ∃ key', (pr.couplings.get? q).or (view.get? q) = some key' ∧
      key'.compare scene.forest key = .eq := by
  rcases hq with hq | hq | ⟨run, hrun, -⟩
  · exact ⟨key, by rw [hq]; rfl, key.compare_self scene.forest⟩
  · have hrestrict := hresiduals _ hq
    rw [View.restrict] at hrestrict
    split at hrestrict
    next => cases hrestrict
    next key' hkey' =>
      split at hrestrict
      next heq => exact ⟨key', hkey', heq⟩
      next => cases hrestrict
  · cases hrun

theorem stands_of_meets {pr : Progress root} {view : View} {l : DecidedLink (Fin p)}
    (hresiduals : ∀ r ∈ pr.residuals, view.restrict scene.forest pr.couplings r.1 r.2 = .ok ())
    (hl : pr.Meets [] l.target.val l.key) :
    l.Stands scene.forest fun q => (pr.couplings.get? q.val).or (view.get? q.val) :=
  exists_of_meets hresiduals hl

/-- Whatever a search couples a pattern to, the pattern accords with it, given what the couplings
and those around them say of the other patterns. -/
theorem accordsWith_of_search (hw : scene.WellFormed) {plan : Plan} {subject : Key} {view : View}
    {c : Couplings} (h : scene.search plan subject view = .ok (some c)) (p : PatternId) (key : Key)
    (hp : c.get? p = some key) :
    scene.AccordsWith (fun q => (c.get? q).or (view.get? q)) (c.path? p) p key := by
  rw [search, searchFor] at h
  obtain ⟨pr, pr', hkey, hrestrict, rfl⟩ := gives_attempt.mp (Walk.gives_of_solve_eq_some h)
  obtain ⟨hruns, hresiduals, -⟩ := gives_restrict.mp hrestrict
  obtain ⟨-, hsettled⟩ := settled_attempt hw scene.inherited_true trivial hkey hruns
  obtain ⟨-, links, ⟨path, hd, hpath, hl⟩, -⟩ := hsettled p key hp
  exact hd.accordsWith hw hpath fun l hmem hk => stands_of_meets hresiduals (hl l hmem hk)

/-- A schema of one kind with a sequence. -/
def lists : Schema :=
  (Schema.base.push ⟨"List", some 0, [⟨"items", .sequence⟩], false⟩ Schema.nodeKind_lt_base).enter
    "List" 1

/-- A pattern for two equal elements in a list, and a list of two leaves. -/
def twins : Scene lists where
  forest := ((Forest.empty.push ⟨0, none, []⟩).push ⟨0, none, []⟩).push
    ⟨1, none, [.sequence [0, 1]]⟩
  patterns := (PatternSet.empty.push ⟨0, .standard none []⟩).push
    ⟨1, .standard none [.sequence [0, 0]]⟩
  watermark := 0

theorem search_twins : twins.search (.make twins.patterns 1 []) (.node 2) [] =
    .ok (some ⟨[(0, .node 0), (1, .node 2)], []⟩) := by
  decide +kernel

theorem define_lists : Schema.define "List" 0 [⟨"items", .sequence⟩] false .base = .ok 1 lists :=
  Schema.define_of_extendLayout (by decide) Schema.nodeKind_lt_base rfl

theorem wellFormed_twins : twins.WellFormed where
  schema := Schema.wellFormed_base.define define_lists
  forest := ((Forest.wellShaped_empty.push (by rfl)).push (by rfl)).push (by rfl)
  patterns := (PatternSet.wellFormed_empty.insert
    (rfl : PatternSet.insert _ 0 (.standard none []) = .ok _)).insert
    (rfl : PatternSet.insert _ 1 (.standard none [.sequence [0, 0]]) = .ok _)

/-- The shared pattern is coupled to the first element and stands for the second one, too. -/
theorem accordsWith_twins :
    twins.search (.make twins.patterns 1 []) (.node 2) [] =
        .ok (some ⟨[(0, .node 0), (1, .node 2)], []⟩) ∧
      twins.AccordsWith
        (fun q => (Couplings.get? ⟨[(0, .node 0), (1, .node 2)], []⟩ q).or (View.get? [] q))
        (Couplings.path? ⟨[(0, .node 0), (1, .node 2)], []⟩ 1) 1 (.node 2) :=
  ⟨search_twins, accordsWith_of_search wellFormed_twins search_twins 1 (.node 2) rfl⟩

end Scene

end Espalier
