import Espalier.Proofs.GreenGrass
import Espalier.Proofs.Planting

/-!
# Rules that use up what they look for

A rule that looks for green grass ends by itself if what it builds for a hit is new throughout.
Every round takes an occurrence of a node from before the run out of the subject: the hit itself is
one, what comes into its place has none, and neither do the copies above it.  So there are no more
rounds than occurrences in the subject that the run has started from.
-/

namespace Espalier

variable {s : Schema}

/-! ## Counting old occurrences -/

section Totals

variable {α : Type} {g : α → Nat}

theorem total_le_total {g h : α → Nat} {xs : List α} (hle : ∀ x ∈ xs, g x ≤ h x) :
    total (xs.map g) ≤ total (xs.map h) := by
  induction xs with
  | nil => exact Nat.le_refl _
  | cons x xs ih =>
    rw [List.forall_mem_cons] at hle
    exact Nat.add_le_add hle.1 (ih hle.2)

theorem le_total {xs : List α} {x : α} (hx : x ∈ xs) : g x ≤ total (xs.map g) := by
  obtain ⟨before, after, rfl⟩ := List.append_of_mem hx
  rw [List.map_append, total_append, List.map_cons, total_cons]
  omega

theorem total_eq_zero {xs : List α} (h : ∀ x ∈ xs, g x = 0) : total (xs.map g) = 0 := by
  induction xs with
  | nil => rfl
  | cons x xs ih =>
    rw [List.forall_mem_cons] at h
    rw [List.map_cons, total_cons, h.1, ih h.2]

/-- To put `y` in the place of `x` is to count the one for the other. -/
theorem total_set {xs : List α} {i : Nat} {x : α} (hx : xs[i]? = some x) (y : α) :
    total ((xs.set i y).map g) + g x = total (xs.map g) + g y := by
  induction xs generalizing i with
  | nil => cases hx
  | cons z xs ih =>
    cases i with
    | zero =>
      obtain rfl := Option.some.inj hx
      simp only [List.set_cons_zero, List.map_cons, total_cons]
      omega
    | succ i =>
      have hrest := ih hx
      simp only [List.set_cons_succ, List.map_cons, total_cons]
      omega

end Totals

namespace Forest

variable {f f' : Forest s} {w : Nat} {x : NodeId}

/-- How many occurrences of nodes before `w` the subtree at `x` has. -/
def occurrencesBelow (f : Forest s) (w : Nat) (x : NodeId) : Nat :=
  (if x < w then 1 else 0) + total ((f.node x).children.map fun c => f.occurrencesBelow w c.val)
termination_by x
decreasing_by exact c.isLt

theorem occurrencesBelow_eq (f : Forest s) (w : Nat) (x : NodeId) :
    f.occurrencesBelow w x =
      (if x < w then 1 else 0) + total ((f.children x).map (f.occurrencesBelow w)) := by
  rw [occurrencesBelow, children, ← Node.map_val_children_below x (f.get x)
    (fun _ hc => f.child_lt_of_mem hc), List.map_map]
  rfl

theorem Extends.occurrencesBelow_eq (h : f.Extends f') (hx : x < f.size) :
    f'.occurrencesBelow w x = f.occurrencesBelow w x := by
  induction x using Nat.strongRecOn with
  | ind x ih =>
    have hchildren : f'.children x = f.children x := by rw [children, children, h.get_eq x hx]
    rw [Forest.occurrencesBelow_eq, Forest.occurrencesBelow_eq, hchildren]
    congr 2
    refine List.map_congr_left fun c hc => ?_
    have hlt : c < x := f.child_lt_of_mem hc
    exact ih c hlt (Nat.lt_trans hlt hx)

theorem occurrencesBelow_le (f : Forest s) (w : Nat) (x : NodeId) :
    f.occurrencesBelow w x ≤ f.occurrences x := by
  induction x using Nat.strongRecOn with
  | ind x ih =>
    rw [occurrencesBelow_eq, occurrences_eq]
    refine Nat.add_le_add ?_ (total_le_total fun c hc => ih c (f.child_lt_of_mem hc))
    split <;> decide

/-- The node is there, and nothing in its subtree is from before `w`. -/
structure Clear (f : Forest s) (w : Nat) (x : NodeId) : Prop where
  lt_size : x < f.size
  none_below : f.occurrencesBelow w x = 0

/-- What is planted after `w` is clear of all before it. -/
theorem Planted.clear {xs : List NodeId} (h : f.Planted f' xs) (hw : w ≤ f.size) (hx : x ∈ xs) :
    f'.Clear w x := by
  have hnone : ∀ y, (∀ z ∈ f'.nodesFrom y, w ≤ z) → f'.occurrencesBelow w y = 0 := by
    intro y
    induction y using Nat.strongRecOn with
    | ind y ih =>
      intro hy
      rw [occurrencesBelow_eq, if_neg (Nat.not_lt.mpr (hy y (f'.self_mem_nodesFrom y))),
        Nat.zero_add]
      refine total_eq_zero fun c hc => ih c (f'.child_lt_of_mem hc) fun z hz => ?_
      exact hy z (mem_nodesFrom_of_child hc hz)
  exact ⟨h.lt_size hx, hnone x fun z hz => Nat.le_trans hw (h.new hx hz).size_le⟩

end Forest

/-! ## Rebuilding along a path -/

/-- To put `d` in the place of a child is to count the one for the other. -/
theorem total_children_set {n : Node NodeId} {m m' : Member NodeId} {member position : Nat}
    {c d : NodeId} (hm : n.members[member]? = some m) (hc : m.children[position]? = some c)
    (hchildren : m'.children = m.children.set position d) (g : NodeId → Nat) :
    total (Node.children { n with members := n.members.set member m' } |>.map g) + g c =
      total (n.children.map g) + g d := by
  have hmember : total (m'.children.map g) + g c = total (m.children.map g) + g d := by
    rw [hchildren]
    exact total_set hc d
  have hmembers := total_set (g := fun m => total (m.children.map g)) hm m'
  simp only [Node.children, total_map_flatMap]
  omega

namespace Forest

variable {f f₁ : Forest s} {w : Nat} {t z : NodeId}

/-- A copy of a node with another child in the place of an old one. -/
theorem withChild_clears {f₂ : Forest s} {above below : Site} (hf₂ : f₂.WellFormed)
    (hext : f.Extends f₂) (hw : w ≤ f.size) (habove : above.node < f.size)
    (hbelow : above.Below f below) (hz : f.New f₂ z) :
    (Grow.orFault (Grow.withChild above.node below.member below.position z)).Yields f₂
      RunError.IsFault fun f' y =>
        f.New f' y ∧ f'.occurrencesBelow w y + f.occurrencesBelow w below.node ≤
        f.occurrencesBelow w above.node + f₂.occurrencesBelow w z := by
  refine .orFault ((Grow.Yields.withChild upheld_wellFormed hf₂ (fun e _ => ⟨_, rfl⟩) fun _ e _ _ =>
    ⟨_, rfl⟩).imp ?_)
  rintro f' y hext' - ⟨hmade, hnew⟩
  replace hnew : f.New f' y := hnew.earlier hext
  obtain ⟨m, m', hm, hreplace, hget⟩ := exists_of_withChild_eq_ok hmade
  rw [hext.get_eq above.node habove] at hm hget
  obtain ⟨k, hk, hc⟩ := hbelow
  obtain rfl := Option.some.inj (hm.symm.trans hk)
  have hlow {c : NodeId} (hc : c ∈ f.children above.node) : c < f.size :=
    Nat.lt_trans (f.child_lt_of_mem hc) habove
  have hmem {c : NodeId} (hc : c ∈ m.children) : c ∈ f.children above.node :=
    List.mem_flatMap_of_mem (List.mem_of_getElem? hm) hc
  have hnot : z ∉ m.children := fun h => Nat.not_lt.mpr hz.size_le (hlow (hmem h))
  obtain ⟨-, hchildren⟩ := children_replaceChild hc hnot hreplace
  have hcount := total_children_set hm hc hchildren (f'.occurrencesBelow w)
  -- The old children and the new one count as before.
  have hold : total ((f.children above.node).map (f'.occurrencesBelow w)) =
      total ((f.children above.node).map (f.occurrencesBelow w)) := by
    congr 1
    refine List.map_congr_left fun c hc => ?_
    exact (hext.trans hext').occurrencesBelow_eq (hlow hc)
  have hchild : f'.occurrencesBelow w below.node = f.occurrencesBelow w below.node :=
    (hext.trans hext').occurrencesBelow_eq (hlow (hmem (List.mem_of_getElem? hc)))
  have hz' : f'.occurrencesBelow w z = f₂.occurrencesBelow w z :=
    hext'.occurrencesBelow_eq hz.lt_size
  have hy : ¬ y < w := Nat.not_lt.mpr (Nat.le_trans hw hnew.size_le)
  refine ⟨hnew, ?_⟩
  calc f'.occurrencesBelow w y + f.occurrencesBelow w below.node
    _ = total ((f'.children y).map (f'.occurrencesBelow w)) + f'.occurrencesBelow w below.node := by
      rw [f'.occurrencesBelow_eq w y, if_neg hy, Nat.zero_add, hchild]
    _ = total ((f.children above.node).map (f.occurrencesBelow w)) + f₂.occurrencesBelow w z := by
      rw [← hold, ← hz', children, hget]
      exact hcount
    _ ≤ f.occurrencesBelow w above.node + f₂.occurrencesBelow w z := by
      rw [f.occurrencesBelow_eq w above.node]
      exact Nat.add_le_add_right (Nat.le_add_left _ _) _

/-- Whatever the last node of a path holds is gone, and no copy above it counts. -/
theorem rebuildAlong_clears {path : List Site} {top bottom : Site} (hf₁ : f₁.WellFormed)
    (hext : f.Extends f₁) (hw : w ≤ f.size) (ht : f.New f₁ t) (hclear : f₁.Clear w t)
    (hchain : path.IsChain (Site.Below f)) (hhead : path.head? = some top)
    (htop : top.node < f.size) (hlast : path.getLast? = some bottom) :
    (rebuildAlong path t : Grow s RunError NodeId).Yields f₁ RunError.IsFault fun f' y =>
      f.New f' y ∧ f'.occurrencesBelow w y + f.occurrencesBelow w bottom.node ≤
        f.occurrencesBelow w top.node := by
  refine (yields_rebuildAlong (Q := fun site f' y => f.New f' y ∧ f'.occurrencesBelow w y +
    f.occurrencesBelow w bottom.node ≤ f.occurrencesBelow w site.node) hf₁ ?_ ?_).imp
      fun f' y _ _ h => h top hhead
  · intro site hsite
    obtain rfl := Option.some.inj (hlast.symm.trans hsite)
    rw [hclear.none_below, Nat.zero_add]
    exact ⟨ht, Nat.le_refl _⟩
  · refine hchain.imp_of_mem_imp fun above below habove _ hbelow f₂ z hext₂ hf₂ hz => ?_
    refine (withChild_clears hf₂ (hext.trans hext₂) hw (node_lt_of_isChain hchain hhead htop habove)
      hbelow hz.1).imp ?_
    rintro f' y - - ⟨hy, hcount⟩
    exact ⟨hy, by omega⟩

end Forest

/-! ## Links that all goes through -/

/-- The only link of `p` leads to `q`. -/
def PatternSet.SoleLink (ps : PatternSet s) (p q : PatternId) : Prop :=
  ps.isDisjunction p = false ∧ ∃ t : Fin p, t.val = q ∧ (ps.query p).links = [⟨0, t, .normal⟩]

namespace PatternSet.SoleLink

variable {ps : PatternSet s} {p q r : PatternId} {slot : Nat}

theorem leads (h : ps.SoleLink p q) : ps.Leads p 0 q := by
  obtain ⟨-, t, rfl, hlinks⟩ := h
  exact ⟨⟨0, t, .normal⟩, by rw [hlinks]; exact List.mem_cons_self, by simp, rfl, rfl⟩

theorem eq_of_leads (h : ps.SoleLink p q) (hr : ps.Leads p slot r) : slot = 0 ∧ r = q := by
  obtain ⟨-, t, rfl, hlinks⟩ := h
  obtain ⟨l, hl, -, rfl, rfl⟩ := hr
  rw [hlinks, List.mem_singleton] at hl
  rw [hl]
  exact ⟨rfl, rfl⟩

end PatternSet.SoleLink

namespace Plan.Scoped

variable {ps : PatternSet s} {plan : Plan} {i : Nat} {link : LinkId} {seed p q r : PatternId}
  {new : List PatternId}

/-- The pattern is keyed in the scope, and what comes before it is led to from there on down
only. -/
def Heads (ps : PatternSet s) (new : List PatternId) (p : PatternId) : Prop :=
  p ∈ new ∧ ∀ q ∈ new, ∀ slot r, ps.Leads q slot r → r < p → q ≤ p

theorem heads_seed (sc : plan.Scoped ps i [] link seed new) : Heads ps new seed := by
  have hseed : seed ∈ new := by
    have hkeyed := sc.closed .seed
    rwa [sc.keyed_eq, List.nil_append] at hkeyed
  exact ⟨hseed, fun q hq _ _ _ _ => sc.le_seed q hq⟩

/-- Nothing that the scope keys lies between a pattern and the target of its only link. -/
theorem le_of_lt_of_mem (sc : plan.Scoped ps i [] link seed new) (hp : Heads ps new p)
    (hl : ps.SoleLink p q) (hr : r ∈ new) (hqr : q < r) : p ≤ r := by
  -- Such a pattern would be led to from another one, closer to `p`.
  induction hn : p - r using Nat.strongRecOn generalizing r with
  | ind n ih =>
    by_contra hnot
    have hrp : r < p := Nat.lt_of_not_le hnot
    obtain ⟨l, -, hconsidered⟩ := sc.exists_keyer hr
    cases hconsidered with
    | seed => exact hnot (sc.le_seed p hp.1)
    | @child a _ slot ha _ hlead =>
      have hle : a ≤ p := hp.2 a ha slot r hlead hrp
      rcases Nat.lt_or_eq_of_le hle with hap | rfl
      · have hcloser : p - a < n := hn ▸ Nat.sub_lt_sub_left hrp hlead.lt
        exact Nat.not_le.mpr hap (ih (p - a) hcloser ha (Nat.lt_trans hqr hlead.lt) rfl)
      · obtain ⟨-, rfl⟩ := hl.eq_of_leads hlead
        exact Nat.lt_irrefl _ hqr

/-- The only link of such a pattern is the keyer of its target. -/
theorem Heads.step (hp : Heads ps new p) (sc : plan.Scoped ps i [] link seed new)
    (hl : ps.SoleLink p q) : (plan.scope i).isKeyer (.child p 0) = true ∧ Heads ps new q := by
  have hq : q ∈ new := by
    have hkeyed := sc.closed (.child hp.1 hl.1 hl.leads)
    rwa [sc.keyed_eq, List.nil_append] at hkeyed
  have hqp := hl.leads.lt
  refine ⟨?_, hq, fun r hr slot a hlead ha => ?_⟩
  · obtain ⟨l, hkeyer, hconsidered⟩ := sc.exists_keyer hq
    cases hconsidered with
    | seed => exact absurd (sc.le_seed p hp.1) (Nat.not_le.mpr hqp)
    | @child r _ slot hr _ hlead =>
      have hle : r ≤ p := hp.2 r hr slot q hlead hqp
      obtain rfl : r = p := Nat.le_antisymm hle (sc.le_of_lt_of_mem hp hl hr hlead.lt)
      obtain ⟨rfl, -⟩ := hl.eq_of_leads hlead
      exact hkeyer
  · by_contra hlt
    have hle : r ≤ p := hp.2 r hr slot a hlead (Nat.lt_trans ha hqp)
    obtain rfl : r = p := Nat.le_antisymm hle (sc.le_of_lt_of_mem hp hl hr (Nat.lt_of_not_le hlt))
    obtain ⟨-, rfl⟩ := hl.eq_of_leads hlead
    exact Nat.lt_irrefl _ ha

end Plan.Scoped

/-! ## Hits -/

namespace Forest

variable {f : Forest s} {x y : NodeId}

theorem lt_size_of_mem_children (h : y ∈ f.children x) : x < f.size := by
  by_contra hx
  rw [children, get, Array.getElem?_eq_none (Nat.le_of_not_lt hx)] at h
  cases h

/-- What has a node of the forest below it is in the forest. -/
theorem Way.lt_size {above : List NodeId} (h : f.Way x above y) (hy : y < f.size) : x < f.size := by
  induction h with
  | refl => exact hy
  | step _ hz ih => exact ih (lt_size_of_mem_children hz)

/-- An old occurrence below a node counts there. -/
theorem Way.occurrencesBelow_le {above : List NodeId} {w : Nat} (h : f.Way x above y) :
    f.occurrencesBelow w y ≤ f.occurrencesBelow w x := by
  induction h with
  | refl => exact Nat.le_refl _
  | @step above y z _ hz ih =>
    refine Nat.le_trans ?_ ih
    rw [f.occurrencesBelow_eq w y]
    exact Nat.le_trans (le_total hz) (Nat.le_add_left _ _)

end Forest

namespace PatternSet

variable {ps : PatternSet s} {p t a : PatternId}

/-- The agent of a pattern that lays one over another, with the bounds on them. -/
theorem exists_agent_overlay (h : (ps.get p).agent = .overlay t a) :
    ∃ t' a' : Fin p, t'.val = t ∧ a'.val = a ∧ (ps.pattern p).agent = .overlay t' a' := by
  have hagent := (ps.map_val_pattern p).trans h
  cases ha : (ps.pattern p).agent with
  | overlay t' a' =>
    rw [ha] at hagent
    obtain ⟨ht, ha⟩ : t'.val = t ∧ a'.val = a := by simpa [Agent.map] using hagent
    exact ⟨t', a', ht, ha, rfl⟩
  | _ => simp [ha, Agent.map] at hagent

theorem exists_agent_greenGrass (h : (ps.get p).agent = .greenGrass t) :
    ∃ t' : Fin p, (ps.pattern p).agent = .greenGrass t' := by
  have hagent := (ps.map_val_pattern p).trans h
  cases ha : (ps.pattern p).agent with
  | greenGrass t' => exact ⟨t', rfl⟩
  | _ => simp [ha, Agent.map] at hagent

end PatternSet

namespace Scene

variable {scene : Scene s} {plan : Plan} {root p : PatternId} {x : NodeId}

/-- The only link that was decided on is followed into the same scope. -/
theorem gives_key_of_links {h : p ≤ root} {scope : Nat} {links : List (DecidedLink (Fin p))}
    {pr pr' : Progress root} {q : Fin p} {key : Key} (hlinks : links = [⟨0, q, .normal, key⟩])
    (hnone : (plan.scope scope).disjunct? p 0 = none)
    (hg : (links.foldlM (scene.follow plan h scope) pr).Gives pr') :
    ∃ hq, (scene.key plan root q.val hq scope (.child p 0) key pr).Gives pr' := by
  subst hlinks
  obtain ⟨pr₁, hfirst, hrest⟩ := Attempt.gives_foldlM_cons.mp hg
  obtain rfl := Attempt.gives_foldlM_nil.mp hrest
  rcases gives_follow.mp hfirst with ⟨-, hkey⟩ | ⟨hkind, -⟩ | ⟨hkind, -⟩
  · rw [hnone] at hkey
    exact ⟨_, hkey⟩
  · cases hkind
  · cases hkind

variable {new : List PatternId} {link l : LinkId} {seed g above grass : PatternId}

/-- What is laid over green grass has an old node for its hit. -/
theorem lt_watermark_of_key (hw : scene.WellFormed)
    (sc : plan.Scoped scene.patterns 0 [] link seed new)
    (hp : Plan.Scoped.Heads scene.patterns new p)
    (hget : (scene.patterns.get p).agent = .overlay g above)
    (hgreen : (scene.patterns.get g).agent = .greenGrass grass)
    (hk : (plan.scope 0).isKeyer l = true) {h : p ≤ root} {pr pr' : Progress root}
    (hg : (scene.key plan root p h 0 l (.node x) pr).Gives pr') : x < scene.watermark := by
  obtain ⟨through, _, rfl, -, hagent⟩ := PatternSet.exists_agent_overlay hget
  obtain ⟨_, hgreen⟩ := PatternSet.exists_agent_greenGrass hgreen
  have hl : scene.patterns.SoleLink p through.val := by
    refine ⟨?_, through, rfl, by rw [PatternSet.query, hagent]; rfl⟩
    rw [PatternSet.isDisjunction, ← PatternSet.isDisjunction_pattern, hagent]
    rfl
  obtain ⟨hkeyer, -⟩ := hp.step sc hl
  rcases (gives_key hw).mp hg with ⟨hno, -⟩ | ⟨-, -, d, pr₁, ⟨-, hoffers⟩, -, hfold, -⟩
  · rw [hk] at hno
    cases hno
  rw [hagent] at hoffers
  obtain ⟨_, hkey⟩ := gives_key_of_links hoffers.1 (sc.disjunct?_eq_none hl.1) hfold
  rcases (gives_key hw).mp hkey with ⟨hno, -⟩ | ⟨-, -, d', -, hd', -⟩
  · rw [hkeyer] at hno
    cases hno
  obtain ⟨y, hy, huntouched⟩ := hd'.untouched hgreen
  cases hy
  exact untouched_iff_lt.mp huntouched

/-- A search for what is laid over green grass takes an old subject. -/
theorem lt_watermark_of_searchFor (hw : scene.WellFormed)
    (hget : (scene.patterns.get root).agent = .overlay g above)
    (hgreen : (scene.patterns.get g).agent = .greenGrass grass) {c : Couplings}
    (h : scene.searchFor root (.amid scene.patterns [] root) (.node x) [] = .ok (some c)) :
    x < scene.watermark := by
  obtain ⟨new, sc⟩ := (Plan.entered_amid scene.patterns [] root).scoped
  rw [searchFor] at h
  obtain ⟨pr, -, hkey, -⟩ := gives_attempt.mp (Walk.gives_of_solve_eq_some h)
  exact lt_watermark_of_key hw sc sc.heads_seed hget hgreen (isKeyer_root scene.patterns root) hkey

/-- A search for it at any site takes an old one. -/
theorem exists_old_site_of_searchFor (hw : scene.WellFormed) {terminus : Fin root}
    (hroot : (scene.patterns.pattern root).agent = .stuff terminus none)
    (hget : (scene.patterns.get terminus.val).agent = .overlay g above)
    (hgreen : (scene.patterns.get g).agent = .greenGrass grass) {c : Couplings}
    (h : scene.searchFor root (.amid scene.patterns [] root) (.node x) [] = .ok (some c)) :
    c.get? root = some (.node x) ∧ ∃ (i : Nat) (site : Site),
      (scene.forest.preorder x)[i]? = some site ∧
        c.path? root = some (pathTo (scene.forest.preorder x) i) ∧ site.node < scene.watermark := by
  obtain ⟨new, sc⟩ := (Plan.entered_amid scene.patterns [] root).scoped
  have hl : scene.patterns.SoleLink root terminus.val := by
    refine ⟨?_, terminus, rfl, by rw [PatternSet.query, hroot]; rfl⟩
    rw [PatternSet.isDisjunction, ← PatternSet.isDisjunction_pattern, hroot]
    rfl
  obtain ⟨hkeyer, hheads⟩ := sc.heads_seed.step sc hl
  obtain ⟨hkey, d, pr, ⟨-, hoffers⟩, hpath, hfold⟩ :=
    exists_decided_of_searchFor hw (isKeyer_root scene.patterns root) h
  rw [hroot] at hoffers
  obtain ⟨i, site, hsite, hlinks, hsites⟩ := hoffers
  obtain ⟨_, hsub⟩ := gives_key_of_links hlinks (sc.disjunct?_eq_none hl.1) hfold
  exact ⟨hkey, i, site, hsite, hpath _ hsites,
    lt_watermark_of_key hw sc hheads hget hgreen hkeyer hsub⟩

end Scene

/-! ## Rounds -/

namespace Grow

variable {find : Forest s → NodeId → Except Fault (Option Couplings)}
  {rebuild : Couplings → Grow s RunError NodeId} {rule : String} {strict : Bool} {left hits : Nat}
  {f f' : Forest s} {x : NodeId} {e : RunError}

/-- Rounds that fail do so with a fault of a search, or have found something: then there is no round
left, or the rebuild or a later round fails. -/
theorem rounds_error_cases (h : rounds find rebuild rule strict left hits x f = .error e f') :
    (∃ e', e = .fault e') ∨ ∃ c, find f x = .ok (some c) ∧ (left = 0 ∨ ∃ left', left = left' + 1 ∧
      (rebuild c f = .error e f' ∨ ∃ y f₁, rebuild c f = .ok y f₁ ∧
        rounds find rebuild rule strict left' (hits + 1) y f₁ = .error e f')) := by
  cases hfind : find f x with
  | error e₁ =>
    rw [rounds_of_error hfind] at h
    cases h
    exact .inl ⟨e₁, rfl⟩
  | ok found =>
    cases found with
    | none =>
      rw [rounds_of_none hfind] at h
      cases h
    | some c =>
      refine .inr ⟨c, rfl, ?_⟩
      cases left with
      | zero => exact .inl rfl
      | succ left =>
        refine .inr ⟨left, rfl, ?_⟩
        cases hc : rebuild c f with
        | ok y f₁ =>
          rw [rounds_succ hfind hc] at h
          exact .inr ⟨y, f₁, rfl, h⟩
        | error e₁ f₁ =>
          rw [rounds.eq_def] at h
          have hget : (get : Grow s RunError (Forest s)) f = .ok f f := rfl
          simp only [bind, EStateM.bind, hget, hfind, hc] at h
          cases h
          exact .inl rfl

variable {w : Nat} {μ : Forest s → NodeId → Nat}

/-- If every round takes away from a measure, then there are no more rounds than it says at the
start, and with as many rounds only a fault can end them early. -/
theorem rounds_of_measure
    (hstep : ∀ f x c, f.WellFormed → w ≤ f.size → find f x = .ok (some c) →
      0 < μ f x ∧ (rebuild c).Yields f RunError.IsFault fun f' y => μ f' y < μ f x)
    (rule : String) (strict : Bool) (left hits : Nat) (x : NodeId) (hf : f.WellFormed)
    (hw : w ≤ f.size) :
    (∀ applied f', rounds find rebuild rule strict left hits x f = .ok applied f' →
      applied.hits ≤ hits + μ f x) ∧
    (μ f x ≤ left → ∀ e f', rounds find rebuild rule strict left hits x f = .error e f' →
      ∃ e', e = .fault e') := by
  induction left generalizing hits x f with
  | zero =>
    refine ⟨fun applied f' h => ?_, fun hle e f' h => ?_⟩
    · rcases rounds_cases h with ⟨rfl, -⟩ | ⟨_, _, _, _, hleft, -⟩
      · exact Nat.le_add_right _ _
      · cases hleft
    · rcases rounds_error_cases h with hfault | ⟨c, hfind, -⟩
      · exact hfault
      · exact absurd (hstep f x c hf hw hfind).1 (Nat.not_lt.mpr hle)
  | succ left ih =>
    refine ⟨fun applied f' h => ?_, fun hle e f' h => ?_⟩
    · rcases rounds_cases h with ⟨rfl, -⟩ | ⟨c, y, f₁, _, hleft, hfind, hy, hrest⟩
      · exact Nat.le_add_right _ _
      · cases hleft
        obtain ⟨hext, hf₁, hless⟩ := (hstep f x c hf hw hfind).2.of_ok hy
        have hhits := (ih (hits + 1) y hf₁ (Nat.le_trans hw hext.size_le)).1 applied f' hrest
        omega
    · rcases rounds_error_cases h with hfault | ⟨c, hfind,
        hzero | ⟨_, hleft, hc | ⟨y, f₁, hy, hrest⟩⟩⟩
      · exact hfault
      · cases hzero
      · exact ((hstep f x c hf hw hfind).2.of_error hc).2.2
      · cases hleft
        obtain ⟨hext, hf₁, hless⟩ := (hstep f x c hf hw hfind).2.of_ok hy
        exact (ih (hits + 1) y hf₁ (Nat.le_trans hw hext.size_le)).2 (by omega) e f' hrest

end Grow

namespace PatternSet

variable {ps ps' : PatternSet s} {search root : PatternId}
  {replace : Option PatternId} {mode : Mode}

/-- The overlay of a rule is rebuilt as what is laid over the search pattern. -/
theorem isLocal_of_mem_rebuiltFrom (hps : ps.WellFormed)
    (h : (Draft.wrap search replace mode).run ps = .ok root ps')
    (hlocal : ∀ q ∈ ps.rebuiltFrom (replace.getD search), (ps.pattern q).agent.isLocal = true) :
    ∀ q ∈ ps'.rebuiltFrom ps.size, (ps'.pattern q).agent.isLocal = true := by
  obtain ⟨-, -, habove, -⟩ := hps.wrap_eq h
  obtain ⟨hget, hoverlay, -⟩ := hps.get_wrap h
  obtain ⟨t, a, -, ha, hagent⟩ := exists_agent_overlay (congrArg Pattern.agent hoverlay)
  have hold {q} (hq : q ∈ ps.rebuiltFrom (replace.getD search)) : ps'.pattern q = ps.pattern q :=
    pattern_eq_of_get_eq (hget q (Nat.lt_of_le_of_lt (le_of_mem_rebuiltFrom hq) habove))
  have hreached : ∀ q ∈ ps'.rebuiltFrom ps.size,
      q = ps.size ∨ q ∈ ps.rebuiltFrom (replace.getD search) := by
    refine forall_mem_reach (fun q hq c hc => ?_) (by simp) (.inl rfl)
    rcases hq with rfl | hq
    · rw [hagent] at hc
      obtain rfl : c = a := by simpa [Agent.rebuilt] using hc
      rw [ha]
      exact .inr self_mem_rebuiltFrom
    · rw [hold hq] at hc
      exact .inr (mem_rebuiltFrom_of_mem_rebuilt hq hc)
  intro q hq
  rcases hreached q hq with rfl | hq
  · rw [hagent]
    rfl
  · rw [hold hq]
    exact hlocal q hq

end PatternSet

namespace Rule

variable {name : String} {patterns : PatternSet s} {search through : PatternId}
  {replace : Option PatternId} {mode : Mode} {r : Rule s} {f : Forest s} {w : Nat} {x : NodeId}
  {c : Couplings}

/-- What is built for a hit is new throughout, if all that is built for it is local. -/
theorem clears_overlay (hs : s.WellFormed) (hps : patterns.WellFormed)
    (hr : Rule.make name patterns search replace mode = .ok r)
    (hlocal : ∀ q ∈ patterns.rebuiltFrom (replace.getD search),
      (patterns.pattern q).agent.isLocal = true)
    (limits : Limits) (hf : f.WellFormed) (hpos : 0 < f.size) (hw : w ≤ f.size) :
    (buildFinal (Workshop.build ⟨r.patterns, r.name, limits⟩ r.plan [c]) id patterns.size
      none).Yields f RunError.IsFault fun f' y => f.New f' y ∧ f'.Clear w y := by
  obtain ⟨root, hwrap, hplan⟩ := exists_wrap_of_make hr
  have hbare : (default : Node NodeId).Fits s :=
    fits_default hs (Nat.zero_lt_of_lt (hf.get hpos).kind_lt)
  have hplants : Terms.planting.Builds (Workshop.build ⟨r.patterns, r.name, limits⟩ r.plan [c]) id f
      patterns.size :=
    Workshop.plants_build hs (hps.wrap hwrap).1 hbare
      (PatternSet.isLocal_of_mem_rebuiltFrom hps hwrap hlocal) PatternSet.self_mem_rebuiltFrom f
  refine (hplants.final (Terms.single_planting _) (.refl f) hf fun _ _ => trivial).imp ?_
  rintro f' y - - ⟨-, hy⟩
  have hmem := List.mem_singleton_self y
  exact ⟨hy.new hmem (f'.self_mem_nodesFrom y), hy.clear hw hmem⟩

/-- A hit of green grass takes an old occurrence out of the subject. -/
theorem rebuild_greenGrass (hs : s.WellFormed) (hps : patterns.WellFormed)
    (hr : Rule.make name patterns search replace mode = .ok r)
    (hgreen : (patterns.get search).agent = .greenGrass through)
    (hlocal : ∀ q ∈ patterns.rebuiltFrom (replace.getD search),
      (patterns.pattern q).agent.isLocal = true)
    (limits : Limits) (hf : f.WellFormed) (hw : w ≤ f.size)
    (hfind : Scene.search ⟨f, r.patterns, w⟩ r.plan.search (.node x) [] = .ok (some c)) :
    0 < f.occurrencesBelow w x ∧
      (buildFinal (Workshop.build ⟨r.patterns, r.name, limits⟩ r.plan [c]) id r.plan.root
        none).Yields f RunError.IsFault fun f' y =>
          f'.occurrencesBelow w y < f.occurrencesBelow w x := by
  have hold {y : NodeId} (hy : y < w) : 0 < f.occurrencesBelow w y := by
    rw [f.occurrencesBelow_eq w y, if_pos hy]
    omega
  obtain ⟨root, hwrap, hplan⟩ := exists_wrap_of_make hr
  obtain ⟨hps', hsearch, -, -⟩ := hps.wrap_eq hwrap
  obtain ⟨hget, hoverlay, hroot⟩ := hps.get_wrap hwrap
  have hoverlay := congrArg Pattern.agent hoverlay
  rw [← hget search hsearch] at hgreen
  have hscene : Scene.WellFormed ⟨f, r.patterns, w⟩ := ⟨hs, hf.wellShaped, hps'⟩
  have hplanRoot : r.plan.root = root := by rw [hplan, RulePlan.root_make]
  have hsearchFor :
      Scene.searchFor ⟨f, r.patterns, w⟩ root (.amid r.patterns [] root) (.node x) [] =
        .ok (some c) := by
    rw [hplan, RulePlan.search_make] at hfind
    exact hfind
  rw [hplanRoot]
  rcases hroot with rfl | ⟨rfl, hstuff⟩
  · -- The subject is the hit, and all that takes its place is new.
    have hx : x < w := Scene.lt_watermark_of_searchFor hscene hoverlay hgreen hsearchFor
    have hpos : 0 < f.size := Nat.zero_lt_of_lt (Nat.lt_of_lt_of_le hx hw)
    refine ⟨hold hx, (clears_overlay hs hps hr hlocal limits hf hpos hw).imp ?_⟩
    rintro f' y - - ⟨-, hy⟩
    rw [hy.none_below]
    exact hold hx
  · -- The hit is below the subject, at the end of the path that is rebuilt.
    obtain ⟨terminus, hterminus, hagent⟩ := PatternSet.exists_agent_stuff hstuff
    rw [← hterminus] at hoverlay
    obtain ⟨hkey, i, site, hsite, hpath, hsiteOld⟩ :=
      Scene.exists_old_site_of_searchFor hscene hagent hoverlay hgreen hsearchFor
    have hway := Forest.way_pathTo hsite
    have hx : x < f.size := hway.lt_size (Nat.lt_of_lt_of_le hsiteOld hw)
    have hcount : 0 < f.occurrencesBelow w site.node := hold hsiteOld
    obtain ⟨hhead, hlast, hchain⟩ := Forest.isChain_pathTo hsite
    refine ⟨Nat.lt_of_lt_of_le hcount hway.occurrencesBelow_le, ?_⟩
    rw [Workshop.buildFinal_stuff hagent (by rw [View.get?_singleton, hkey])
      (by rw [View.path?_singleton, hpath]) (by rw [hhead]; rfl), hterminus]
    refine (clears_overlay hs hps hr hlocal limits hf (Nat.zero_lt_of_lt hx) hw).bind ?_
    rintro f₁ t hext hf₁ ⟨hnew, hclear⟩
    refine (Forest.rebuildAlong_clears hf₁ hext hw hnew hclear hchain hhead hx hlast).imp ?_
    rintro f' y - - ⟨-, hless⟩
    dsimp only at hless
    omega

/-- A rule that looks for green grass and builds what is new throughout ends by itself: it has no
more hits than the subject has occurrences, and a cap of as many rounds or more is never what ends
it. -/
theorem hits_le_of_greenGrass (hs : s.WellFormed) (hps : patterns.WellFormed)
    (hr : Rule.make name patterns search replace mode = .ok r)
    (hgreen : (patterns.get search).agent = .greenGrass through)
    (hlocal : ∀ q ∈ patterns.rebuiltFrom (replace.getD search),
      (patterns.pattern q).agent.isLocal = true)
    (hf : f.WellFormed) (root : NodeId) (limits : Limits) :
    (∀ applied f', r.apply limits root f = .ok applied f' → applied.hits ≤ (f.preorder root).size) ∧
    ((f.preorder root).size ≤ limits.maxRepetitions →
      ∀ rule n f', r.apply limits root f ≠ .error (.possiblyInfinite rule n) f') := by
  have hmeasure : f.occurrencesBelow f.size root ≤ (f.preorder root).size := by
    rw [Forest.size_preorder]
    exact f.occurrencesBelow_le f.size root
  obtain ⟨hhits, hends⟩ := Grow.rounds_of_measure
    (fun f' x c hf' hw hfind => rebuild_greenGrass hs hps hr hgreen hlocal limits hf' hw hfind)
    r.name limits.strict limits.maxRepetitions 0 root hf (Nat.le_refl f.size)
  refine ⟨fun applied f' h => ?_, fun hle rule n f' h => ?_⟩
  · have := hhits applied f' h
    omega
  · obtain ⟨e, he⟩ := hends (Nat.le_trans hmeasure hle) _ f' h
    cases he

/-- An empty list that is old, and an empty list in a list. -/
def emptyLists : PatternSet Scene.lists :=
  ((PatternSet.empty.push ⟨1, .standard none [.sequence []]⟩).push ⟨1, .greenGrass 0⟩).push
    ⟨1, .standard none [.sequence [0]]⟩

theorem wellFormed_emptyLists : emptyLists.WellFormed :=
  ((PatternSet.wellFormed_empty.insert
    (rfl : PatternSet.insert _ 1 (.standard none [.sequence []]) = .ok _)).insert
    (rfl : PatternSet.insert _ 1 (.greenGrass 0) = .ok _)).insert
    (rfl : PatternSet.insert _ 1 (.standard none [.sequence [0]]) = .ok _)

/-- The rule that puts a list around every empty list. -/
def wrapEmpty : Rule Scene.lists where
  name := "wrap empty"
  patterns := (emptyLists.push ⟨0, .overlay 1 2⟩).push ⟨0, .stuff 3 none⟩
  search := 1
  replace := some 2
  mode := .search
  plan := RulePlan.make ((emptyLists.push ⟨0, .overlay 1 2⟩).push ⟨0, .stuff 3 none⟩) 4 []

/-- The two empty lists are wrapped, and those inside of the wrappings are not. -/
theorem hits_le_of_greenGrass_nestedLists :
    (∃ f', wrapEmpty.apply ⟨6, true⟩ 4 nestedLists = .ok ⟨12, 2⟩ f') ∧
      2 ≤ (nestedLists.preorder 4).size ∧ (nestedLists.preorder 4).size ≤ 6 ∧
      ∀ rule n f',
        wrapEmpty.apply ⟨6, true⟩ 4 nestedLists ≠ .error (.possiblyInfinite rule n) f' := by
  have hmake : Rule.make "wrap empty" emptyLists 1 (some 2) .search = .ok wrapEmpty := rfl
  have hlocal : ∀ q ∈ emptyLists.rebuiltFrom ((some 2).getD 1),
      (emptyLists.pattern q).agent.isLocal = true := by
    decide +kernel
  have hsites : (nestedLists.preorder 4).size = 6 := by decide +kernel
  have happly : (wrapEmpty.apply ⟨6, true⟩ 4).run' nestedLists = some ⟨12, 2⟩ := by decide +kernel
  obtain ⟨f', hrun⟩ := Grow.exists_of_run'_eq_some happly
  obtain ⟨hhits, hends⟩ := hits_le_of_greenGrass (Schema.wellFormed_base.define Scene.define_lists)
    wellFormed_emptyLists hmake rfl hlocal wellFormed_nestedLists 4 ⟨6, true⟩
  exact ⟨⟨f', hrun⟩, hhits _ f' hrun, Nat.le_of_eq hsites, hends (Nat.le_of_eq hsites)⟩

end Rule

end Espalier
