import Espalier.Proofs.Contested
import Mathlib.Data.List.Nodup
import Mathlib.Data.List.Pairwise

/-!
# Patterns that are not shared

In a pattern that is a tree, no pattern is the target of two links.  Wherever the search for it
goes, it comes to patterns that nothing around has keyed, so every link that is followed is a keyer,
no pattern is contested, and nothing is ever residual.
-/

namespace Espalier

variable {s : Schema}

namespace PatternSet

/-- The pattern `p` has a link at `slot` to `q`, of whatever kind. -/
def Refers (ps : PatternSet s) (p : PatternId) (slot : Nat) (q : PatternId) : Prop :=
  ∃ l ∈ (ps.query p).links, l.slot = slot ∧ l.target.val = q

/-- Links lead from `p` to `q`, directly or through other patterns. -/
inductive Linked (ps : PatternSet s) (p : PatternId) : PatternId → Prop where
  | refl : Linked ps p p
  | step {q r : PatternId} {slot : Nat} (h : Linked ps p q) (hr : ps.Refers q slot r) :
      Linked ps p r

/-- No pattern is the target of two links, as far as links lead from `root`. -/
structure TreeShaped (ps : PatternSet s) (root : PatternId) : Prop where
  unique : ∀ {p p' slot slot' q}, ps.Linked root p → ps.Linked root p' → ps.Refers p slot q →
    ps.Refers p' slot' q → p = p' ∧ slot = slot'

/-- From `seed` on the patterns make a tree, and none of it is keyed already. -/
structure Apart (ps : PatternSet s) (keyed : List PatternId) (seed : PatternId) : Prop where
  tree : ps.TreeShaped seed
  fresh : ∀ q ∈ keyed, ¬ ps.Linked seed q

variable {ps : PatternSet s} {root p q r t t' : PatternId} {slot : Nat}

theorem Leads.refers (h : ps.Leads p slot q) : ps.Refers p slot q := by
  obtain ⟨l, hl, -, hslot, htarget⟩ := h
  exact ⟨l, hl, hslot, htarget⟩

theorem Guards.refers (h : ps.Guards p slot q) : ps.Refers p slot q := by
  obtain ⟨l, hl, -, hslot, htarget⟩ := h
  exact ⟨l, hl, hslot, htarget⟩

theorem Refers.lt (h : ps.Refers p slot q) : q < p := by
  obtain ⟨l, -, -, rfl⟩ := h
  exact l.target.isLt

theorem not_leads_of_guards (h : ps.Guards p slot q) : ¬ ps.Leads p slot q := by
  rintro ⟨l, hl, hk, hslot, -⟩
  obtain ⟨l', hl', hk', hslot', -⟩ := h
  rw [link_ext hl hl' (hslot.trans hslot'.symm)] at hk
  exact hk hk'

theorem Linked.le (h : ps.Linked p q) : q ≤ p := by
  induction h with
  | refl => exact Nat.le_refl p
  | step _ hr ih => exact Nat.le_trans (Nat.le_of_lt hr.lt) ih

theorem Linked.trans (h : ps.Linked p q) (h' : ps.Linked q r) : ps.Linked p r := by
  induction h' with
  | refl => exact h
  | step _ hr ih => exact ih.step hr

/-- It is enough that no target occurs twice among all the links of all patterns up to `root`. -/
theorem treeShaped_of_nodup (h : ((List.range (root + 1)).flatMap fun p =>
    (ps.query p).links.map fun l => l.target.val).Nodup) : ps.TreeShaped root := by
  obtain ⟨hsame, hother⟩ := List.nodup_flatMap.mp h
  constructor
  rintro p p' slot slot' q hp hp' ⟨l, hl, rfl, rfl⟩ ⟨l', hl', rfl, htarget⟩
  have hmem {p} (hp : ps.Linked root p) : p ∈ List.range (root + 1) :=
    List.mem_range.mpr (Nat.lt_succ_of_le hp.le)
  obtain rfl : p = p' := by
    by_contra hne
    have : Std.Symm (Function.onFun List.Disjoint fun p => (ps.query p).links.map (·.target.val)) :=
      ⟨fun _ _ => List.disjoint_symm⟩
    refine hother.forall (hmem hp) (hmem hp') hne (List.mem_map_of_mem hl) ?_
    rw [← htarget]
    exact List.mem_map_of_mem hl'
  have heq := List.inj_on_of_nodup_map (hsame p (hmem hp)) hl hl' htarget.symm
  exact ⟨rfl, congrArg Link.slot heq⟩

theorem TreeShaped.of_linked (h : ps.TreeShaped root) (hq : ps.Linked root q) : ps.TreeShaped q :=
  ⟨fun hp hp' => h.unique (hq.trans hp) (hq.trans hp')⟩

/-- Of two patterns that both have links leading to a third, one has links leading to the other. -/
theorem TreeShaped.linked_or_linked (h : ps.TreeShaped root) (ht : ps.Linked root t)
    (ht' : ps.Linked root t') (hq : ps.Linked t q) (hq' : ps.Linked t' q) :
    ps.Linked t t' ∨ ps.Linked t' t := by
  induction hq with
  | refl => exact .inr hq'
  | @step r q slot hr hrefers ih =>
    cases hq' with
    | refl => exact .inl (hr.step hrefers)
    | step hr' hrefers' =>
      obtain ⟨rfl, -⟩ := h.unique (ht.trans hr) (ht'.trans hr') hrefers hrefers'
      exact ih hr'

end PatternSet

/-! ## Plans for trees -/

theorem Within.linked {ps : PatternSet s} {scope : Scope} {link l : LinkId} {p q : PatternId}
    (h : Within ps scope link p l q) : ps.Linked p q := by
  induction h with
  | self => exact .refl
  | step _ _ hl _ ih => exact ih.step hl.refers

namespace Plan

variable {ps : PatternSet s} {plan : Plan} {i : Nat} {keyed new : List PatternId}
  {entry link : LinkId} {seed root p q t : PatternId} {slot : Nat}

theorem Scoped.linked_of_mem (sc : plan.Scoped ps i keyed entry seed new) (h : q ∈ new) :
    ps.Linked seed q := by
  obtain ⟨l, hwithin⟩ := sc.exists_within h
  exact hwithin.linked

theorem Scoped.linked_of_considered (sc : plan.Scoped ps i keyed entry seed new)
    (h : Considered ps new entry seed link q) : ps.Linked seed q := by
  cases h with
  | seed => exact .refl
  | child hp _ hl => exact (sc.linked_of_mem hp).step hl.refers

/-- Every link that is followed in a tree is a keyer. -/
theorem Scoped.isKeyer_of_apart (sc : plan.Scoped ps i keyed entry seed new)
    (ha : ps.Apart keyed seed) (h : Considered ps new entry seed link q) :
    (plan.scope i).isKeyer link = true := by
  have hmem := sc.closed h
  rw [sc.keyed_eq] at hmem
  rcases List.mem_append.mp hmem with hmem | hmem
  · exact (ha.fresh q hmem (sc.linked_of_considered h)).elim
  · obtain ⟨link', hk, h'⟩ := sc.exists_keyer hmem
    cases h with
    | seed =>
      cases h' with
      | seed => exact hk
      | child hp _ hl => exact absurd hl.lt (Nat.not_lt.mpr (sc.le_seed _ hp))
    | child hp _ hl =>
      cases h' with
      | seed => exact absurd hl.lt (Nat.not_lt.mpr (sc.le_seed _ hp))
      | child hp' _ hl' =>
        obtain ⟨rfl, rfl⟩ := ha.tree.unique (sc.linked_of_mem hp) (sc.linked_of_mem hp')
          hl.refers hl'.refers
        exact hk

/-- A link that leads out of a scope leads to nothing that is keyed in it. -/
theorem Scoped.not_linked_of_mem (sc : plan.Scoped ps i keyed entry seed new)
    (ha : ps.Apart keyed seed) (hp : p ∈ new)
    (hout : ps.isDisjunction p = true ∧ ps.Leads p slot q ∨ ps.Guards p slot q)
    (hr : t ∈ new) : ¬ ps.Linked q t := by
  have hrefers : ps.Refers p slot q := hout.elim (fun h => h.2.refers) fun h => h.refers
  have hseed : ps.Linked seed q := (sc.linked_of_mem hp).step hrefers
  -- Go up from `t` along keyers: one of the patterns on the way is entered from outside the scope.
  intro hlinked
  induction hlinked with
  | refl =>
    obtain ⟨link, -, h⟩ := sc.exists_keyer hr
    cases h with
    | seed => exact absurd hrefers.lt (Nat.not_lt.mpr (sc.le_seed _ hp))
    | child hp' hd hl =>
      obtain ⟨rfl, rfl⟩ := ha.tree.unique (sc.linked_of_mem hp) (sc.linked_of_mem hp')
        hrefers hl.refers
      rcases hout with ⟨hd', -⟩ | hguards
      · rw [hd] at hd'
        cases hd'
      · exact PatternSet.not_leads_of_guards hguards hl
  | @step r t slot' hlinked hrefers' ih =>
    obtain ⟨link, -, h⟩ := sc.exists_keyer hr
    cases h with
    | seed =>
      have hlt := Nat.lt_of_lt_of_le (Nat.lt_of_lt_of_le hrefers'.lt hlinked.le) hseed.le
      exact Nat.lt_irrefl _ hlt
    | child hp' _ hl =>
      obtain ⟨rfl, -⟩ := ha.tree.unique (hseed.trans hlinked) (sc.linked_of_mem hp')
        hrefers' hl.refers
      exact ih hp'

end Plan

theorem handedOn_apart (ps : PatternSet s) : HandedOn ps ps.Apart := by
  intro plan i keyed entry seed new p slot q sc ha hp hout
  have hrefers : ps.Refers p slot q := hout.elim (fun h => h.2.refers) fun h => h.refers
  have hseed : ps.Linked seed q := (sc.linked_of_mem hp).step hrefers
  refine ⟨ha.tree.of_linked hseed, fun r hr hlinked => ?_⟩
  rw [sc.keyed_eq] at hr
  rcases List.mem_append.mp hr with hr | hr
  · exact ha.fresh r hr (hseed.trans hlinked)
  · exact sc.not_linked_of_mem ha hp hout hr hlinked

namespace Plan

variable {ps : PatternSet s} {plan : Plan} {i : Nat} {keyed new : List PatternId}
  {entry link : LinkId} {seed root p q t : PatternId} {slot : Nat}

theorem not_strays_of_apart : ¬ plan.Strays ps ps.Apart q := by
  rintro ⟨i, keyed, entry, seed, new, link, sc, ha, h, hk⟩
  rw [sc.isKeyer_of_apart ha h] at hk
  cases hk

theorem Reaches.linked (h : plan.Reaches ps i link p q) : ps.Linked p q := by
  induction h with
  | within h => exact h.linked
  | enter h _ ht _ ih => exact (h.linked.step ht.refers).trans ih

/-- No pattern of a tree is contested. -/
theorem not_contested_of_apart (ha : ps.Apart keyed root) :
    ¬ (amid ps keyed root).Contested ps q := by
  rintro ⟨i, m, m', hopen, hne, ⟨slot, j, t, hj, ht, hr⟩, ⟨slot', j', t', hj', ht', hr'⟩⟩
  obtain ⟨keyed', entry, seed, new, sc, ha'⟩ := hopen.exists_scoped (handedOn_apart ps) ha
  obtain ⟨hm, hd, -⟩ := sc.of_disjunct hj
  obtain ⟨hm', hd', -⟩ := sc.of_disjunct hj'
  have hlinked {m t slot} (hm : m ∈ new) (ht : ps.Leads m slot t) : ps.Linked seed t :=
    (sc.linked_of_mem hm).step ht.refers
  have hdisjoint {m m' t t' slot slot'} (hm : m ∈ new) (hd : ps.isDisjunction m = true)
      (ht : ps.Leads m slot t) (hm' : m' ∈ new) (ht' : ps.Leads m' slot' t') (hne : m ≠ m') :
      ¬ ps.Linked t t' := by
    intro h
    cases h with
    | refl =>
      exact hne (ha'.tree.unique (sc.linked_of_mem hm) (sc.linked_of_mem hm')
        ht.refers ht'.refers).1
    | step hr hrefers =>
      obtain ⟨rfl, -⟩ := ha'.tree.unique ((hlinked hm ht).trans hr) (sc.linked_of_mem hm') hrefers
        ht'.refers
      exact sc.not_linked_of_mem ha' hm (.inl ⟨hd, ht⟩) hm' hr
  rcases ha'.tree.linked_or_linked (hlinked hm ht) (hlinked hm' ht') hr.linked hr'.linked with h | h
  · exact hdisjoint hm hd ht hm' ht' hne h
  · exact hdisjoint hm' hd' ht' hm ht hne.symm h

end Plan

/-- In a tree nothing is residual. -/
theorem Covered.residuals_eq_nil_of_apart {scene : Scene s} {plan : Plan} {root : PatternId}
    {around : PatternId → Prop} {pr : Progress root} {rest : List (Pending root)}
    (hc : Covered scene plan scene.patterns.Apart around pr rest) : pr.residuals = [] := by
  rw [List.eq_nil_iff_forall_not_mem]
  intro r hr
  exact Plan.not_strays_of_apart (hc.residuals r hr).2

end Espalier
