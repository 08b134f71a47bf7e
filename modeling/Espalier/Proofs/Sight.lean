import Espalier.Proofs.TreeShaped

/-!
# What a region sees of the search around it

The plan of a region starts from what its own scope keys.  What the scopes of other disjuncts key is
out of its sight, although an attempt may well have taken those disjuncts.  All scopes of a search
together key what can be reached along links that are followed, so a region that refers to nothing
out of its sight sees all of that: where the disjunctions are makes no difference to it.
-/

namespace Espalier

variable {s : Schema}

/-- Links that are followed lead from `root` to a pattern, past none of those of `keyed`. -/
inductive PatternSet.Reached (ps : PatternSet s) (keyed : List PatternId) (root : PatternId) :
    PatternId → Prop where
  | root (h : root ∉ keyed) : Reached ps keyed root root
  | step {p q : PatternId} {slot : Nat} (h : Reached ps keyed root p) (hl : ps.Leads p slot q)
      (hq : q ∉ keyed) : Reached ps keyed root q

namespace PatternSet.Reached

variable {ps : PatternSet s} {keyed : List PatternId} {root p : PatternId}

theorem not_mem (h : ps.Reached keyed root p) : p ∉ keyed := by
  cases h <;> assumption

theorem linked (h : ps.Reached keyed root p) : ps.Linked root p := by
  induction h with
  | root => exact .refl
  | step _ hl _ ih => exact ih.step hl.refers

end PatternSet.Reached

namespace Plan

variable {ps : PatternSet s} {plan : Plan} {i : Nat} {keyed keyed' new : List PatternId}
  {link : LinkId} {seed root p q r t : PatternId} {slot : Nat}

/-- One of the scopes that an attempt may come to keys the pattern `r`. -/
def Keys (ps : PatternSet s) (plan : Plan) (r : PatternId) : Prop :=
  ∃ i keyed link seed new, plan.Scoped ps i keyed link seed new ∧ r ∈ new

theorem Scoped.reached_of_mem (sc : plan.Scoped ps i keyed' link seed new) (hsub : keyed ⊆ keyed')
    (hseed : seed ∉ keyed → ps.Reached keyed root seed) (hr : r ∈ new) :
    ps.Reached keyed root r := by
  obtain ⟨l, hwithin⟩ := sc.exists_within hr
  have hfresh {l q} (h : Within ps (plan.scope i) link seed l q) : q ∉ keyed := fun hq =>
    sc.fresh q (sc.mem_of_isKeyer (sc.considered_of_within .seed h) h.isKeyer) (hsub hq)
  clear hr
  induction hwithin with
  | self hk => exact hseed (hfresh (.self hk))
  | step h hd hl hk ih => exact ih.step hl (hfresh (h.step hd hl hk))

/-- What is keyed by the end of a scope is keyed around the search or reached in it. -/
theorem Open.exists_reached (h : (amid ps keyed root).Open i) :
    ∃ keyed' link seed new, (amid ps keyed root).Scoped ps i keyed' link seed new ∧ keyed ⊆ keyed' ∧
      ∀ r ∈ ((amid ps keyed root).scope i).keyed,
        r ∈ keyed ∨ ps.Reached keyed root r ∧ (amid ps keyed root).Keys ps r := by
  induction h with
  | start =>
    obtain ⟨new, sc⟩ := (entered_amid ps keyed root).scoped
    refine ⟨keyed, .root, root, new, sc, fun _ => id, fun r hr => ?_⟩
    rw [sc.keyed_eq, List.mem_append] at hr
    refine hr.imp_right fun hr => ⟨sc.reached_of_mem (fun _ => id) .root hr, ?_⟩
    exact ⟨_, _, _, _, _, sc, hr⟩
  | @disjunct i j slot m _ hj ih =>
    obtain ⟨keyed', link, seed, new, sc, hsub, hkeyed⟩ := ih
    obtain ⟨hm, hd, q, hlead, hentered⟩ := sc.of_disjunct hj
    obtain ⟨new', sc'⟩ := hentered.scoped
    have hsub' : keyed ⊆ ((amid ps keyed root).scope i).keyed := by
      rw [sc.keyed_eq]
      exact List.Subset.trans hsub (List.subset_append_left keyed' new)
    have hm' : ps.Reached keyed root m := by
      have hmem : m ∈ ((amid ps keyed root).scope i).keyed := by
        rw [sc.keyed_eq]
        exact List.mem_append_right _ hm
      exact ((hkeyed m hmem).resolve_left fun h => sc.fresh m hm (hsub h)).1
    refine ⟨_, _, q, new', sc', hsub', fun r hr => ?_⟩
    rw [sc'.keyed_eq, List.mem_append] at hr
    rcases hr with hr | hr
    · exact hkeyed r hr
    · exact .inr ⟨sc'.reached_of_mem hsub' (hm'.step hlead) hr, _, _, _, _, _, sc', hr⟩

theorem Scoped.reached (sc : (amid ps keyed root).Scoped ps i keyed' link seed new)
    (hsub : keyed ⊆ keyed') (hp : p ∈ new) : ps.Reached keyed root p := by
  obtain ⟨_, _, _, _, -, -, hkeyed⟩ := sc.isOpen.exists_reached
  have hmem : p ∈ ((amid ps keyed root).scope i).keyed := by
    rw [sc.keyed_eq]
    exact List.mem_append_right _ hp
  exact ((hkeyed p hmem).resolve_left fun h => sc.fresh p hp (hsub h)).1

theorem keys_of_reached (h : ps.Reached keyed root r) : (amid ps keyed root).Keys ps r := by
  induction h with
  | root h =>
    obtain ⟨new, sc⟩ := (entered_amid ps keyed root).scoped
    refine ⟨_, _, _, _, _, sc, ?_⟩
    have hmem := sc.closed .seed
    rw [sc.keyed_eq, List.mem_append] at hmem
    exact hmem.resolve_left h
  | step _ hl hq ih =>
    obtain ⟨i, keyed', link, seed, new, sc, hp⟩ := ih
    obtain ⟨_, _, _, _, sc', hl', -⟩ := sc.exists_next hp hl
    obtain ⟨_, _, _, _, -, -, hkeyed⟩ := sc'.isOpen.exists_reached
    exact ((hkeyed _ (sc'.closed hl')).resolve_left hq).2

/-- The scopes that an attempt may come to key, all together, what is reached. -/
theorem exists_open_iff :
    (∃ j, (amid ps keyed root).Open j ∧ r ∈ ((amid ps keyed root).scope j).keyed) ↔
    r ∈ keyed ∨ ps.Reached keyed root r := by
  constructor
  · rintro ⟨j, ho, hr⟩
    obtain ⟨_, _, _, _, -, -, hkeyed⟩ := ho.exists_reached
    exact (hkeyed r hr).imp_right And.left
  · rintro (hr | hr)
    · obtain ⟨new, sc⟩ := (entered_amid ps keyed root).scoped
      refine ⟨0, .start, ?_⟩
      rw [sc.keyed_eq]
      exact List.mem_append_left _ hr
    · obtain ⟨j, keyed', link, seed, new, sc, hr⟩ := keys_of_reached hr
      refine ⟨j, sc.isOpen, ?_⟩
      rw [sc.keyed_eq]
      exact List.mem_append_right _ hr

/-- No region, however deep, refers to a pattern that is keyed out of its sight: what some scope of
the search around it keys of the patterns that it refers to, its own scope does. -/
def Clear (ps : PatternSet s) (plan : Plan) : Prop :=
  ∀ inner, plan.Encloses inner → ∀ i j p slot nested r, inner.Open i → inner.Open j →
    (inner.scope i).nested? p slot = some nested → ps.Linked nested.root r →
    r ∈ (inner.scope j).keyed → r ∈ (inner.scope i).keyed

theorem Clear.nested {nested : Plan} (h : plan.Clear ps) (ho : plan.Open i)
    (hn : (plan.scope i).nested? p slot = some nested) : nested.Clear ps :=
  fun inner hencl => h inner ((Encloses.nested .refl ho hn).trans hencl)

/-- A region of a clear plan sees all that is reached of the patterns that it refers to. -/
theorem Clear.mem_keyed_iff (h : (amid ps keyed root).Clear ps)
    (sc : (amid ps keyed root).Scoped ps i keyed' link seed new) (hp : p ∈ new)
    (hg : ps.Guards p slot t) (hr : ps.Linked t r) :
    r ∈ ((amid ps keyed root).scope i).keyed ↔ r ∈ keyed ∨ ps.Reached keyed root r := by
  rw [← exists_open_iff]
  constructor
  · exact fun hr => ⟨i, sc.isOpen, hr⟩
  · rintro ⟨j, ho, hr'⟩
    exact h _ .refl i j p slot _ r sc.isOpen ho (sc.nested hp hg) hr hr'

theorem scope_mem_of_keyed (hr : r ∈ (plan.scope i).keyed) : plan.scope i ∈ plan.scopes := by
  unfold scope at hr ⊢
  cases hi : plan.scopes[i]? with
  | none => simp [hi, Scope.empty, Scope.keyed] at hr
  | some scope => exact List.mem_of_getElem? hi

theorem scope_mem_of_nested {nested : Plan} (hn : (plan.scope i).nested? p slot = some nested) :
    plan.scope i ∈ plan.scopes ∧ ((p, slot), nested) ∈ (plan.scope i).nested := by
  unfold Scope.nested? scope at hn
  unfold scope
  cases hi : plan.scopes[i]? with
  | none => simp [hi, Scope.empty, Scope.nested] at hn
  | some scope =>
    rw [hi] at hn
    obtain ⟨l₁, l₂, hl, -⟩ := List.lookup_eq_some_iff.mp hn
    refine ⟨List.mem_of_getElem? hi, ?_⟩
    rw [hl]
    exact List.mem_append_right _ List.mem_cons_self

theorem Encloses.eq_or_nested {inner : Plan} (h : plan.Encloses inner) :
    inner = plan ∨ ∃ i p slot nested, (plan.scope i).nested? p slot = some nested ∧
      nested.Encloses inner := by
  induction h with
  | refl => exact .inl rfl
  | nested _ ho hn ih =>
    rcases ih with rfl | ⟨i, p, slot, nested, hn', hencl⟩
    · exact .inr ⟨_, _, _, _, hn, .refl⟩
    · exact .inr ⟨i, p, slot, nested, hn', .nested hencl ho hn⟩

/-- A plan is clear if its regions are and its own scopes hide nothing from them. -/
theorem clear_of_scopes (h : ∀ scope ∈ plan.scopes, ∀ x ∈ scope.nested, x.2.Clear ps ∧
    ∀ scope' ∈ plan.scopes, ∀ r ∈ scope'.keyed, ps.Linked x.2.root r → r ∈ scope.keyed) :
    plan.Clear ps := by
  intro inner hencl i j p slot nested r ho hj hn hr hmem
  rcases hencl.eq_or_nested with rfl | ⟨i', p', slot', nested', hn', hencl'⟩
  · obtain ⟨hscope, hx⟩ := scope_mem_of_nested hn
    exact (h _ hscope _ hx).2 _ (scope_mem_of_keyed hmem) r hmem hr
  · obtain ⟨hscope, hx⟩ := scope_mem_of_nested hn'
    exact (h _ hscope _ hx).1 inner hencl' i j p slot nested r ho hj hn hr hmem

end Plan

end Espalier
