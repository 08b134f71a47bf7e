import Espalier.Proofs.Solution
import Mathlib.Logic.Relation

/-!
# What a search binds

A plan says which patterns a search keys before there is a subject to search in, and the plans of
regions and of slaves rely on it.  The couplings that a successful attempt makes are those of one
walk through the plan: all that the first scope keys, nothing that is keyed around the search, and
nothing that only an abnormal link leads to.  Where the plan has one scope they are all that it
keys.
-/

namespace Espalier

variable {s : Schema}

/-- Links that are not abnormal lead from `p` to `q`, directly or through other patterns. -/
def PatternSet.Connects (ps : PatternSet s) : PatternId → PatternId → Prop :=
  Relation.ReflTransGen fun p q => ∃ slot, ps.Leads p slot q

theorem Within.connects {ps : PatternSet s} {scope : Scope} {link l : LinkId} {p q : PatternId}
    (h : Within ps scope link p l q) : ps.Connects p q := by
  induction h with
  | self => exact .refl
  | step _ _ hl _ ih => exact ih.tail ⟨_, hl⟩

namespace Plan

variable {ps : PatternSet s} {plan : Plan} {i : Nat} {keyed new keys : List PatternId}
  {entry link : LinkId} {seed p q : PatternId}

theorem Reaches.connects (h : plan.Reaches ps i link p q) : ps.Connects p q := by
  induction h with
  | within h => exact h.connects
  | enter h _ ht _ ih => exact h.connects.trans (.head ⟨_, ht⟩ ih)

/-- A walk from the entry of a scope keys all that is keyed there and not around it. -/
theorem Walks.mem_of_scoped (h : plan.Walks ps i entry seed keys)
    (sc : plan.Scoped ps i keyed entry seed new) (hq : q ∈ (plan.scope i).keyed)
    (hkeyed : q ∉ keyed) : q ∈ keys := by
  rw [sc.keyed_eq, List.mem_append] at hq
  obtain ⟨l, hwithin⟩ := sc.exists_within (hq.resolve_left hkeyed)
  exact h.mem_of_within sc hwithin

/-- The scope of a disjunct is another one than that of its disjunction. -/
theorem Scoped.ne_of_disjunct {j slot : Nat} (sc : plan.Scoped ps i keyed entry seed new)
    (hj : (plan.scope i).disjunct? p slot = some j) : j ≠ i := by
  rintro rfl
  obtain ⟨hp, -, q, -, hentered⟩ := sc.of_disjunct hj
  obtain ⟨new', sc'⟩ := hentered.scoped
  -- What is keyed around the disjunct is keyed in its scope, so nothing is new there.
  obtain rfl : new' = [] := List.self_eq_append_right.mp sc'.keyed_eq
  have hlength := sc.keyers.length_eq
  rw [sc'.keyers.length_eq] at hlength
  exact List.ne_nil_of_mem hp (List.length_eq_zero_iff.mp hlength.symm)

/-- In a plan of one scope all that keyers lead to is keyed in that scope. -/
theorem Reaches.mem_keyed (h : plan.Reaches ps 0 link p q)
    (sc : plan.Scoped ps 0 keyed entry seed new) (hl : Considered ps new entry seed link p)
    (hlength : plan.scopes.length = 1) : q ∈ (plan.scope 0).keyed := by
  cases h with
  | within h => exact sc.closed (sc.considered_of_within hl h)
  | enter _ hj =>
    obtain ⟨-, -, t, -, hentered⟩ := sc.of_disjunct hj
    have hlt := hentered.lt_length
    have hne := sc.ne_of_disjunct hj
    omega

end Plan

namespace Scene

variable {scene : Scene s} {root : PatternId} {master : List PatternId} {subject : Key}
  {view : View} {c : Couplings}

/-- The couplings of a search are those of a walk through its plan. -/
theorem exists_walks_of_search (hw : scene.WellFormed)
    (h : scene.search (.make scene.patterns root master) subject view = .ok (some c)) :
    ∃ keys, (Plan.make scene.patterns root master).Walks scene.patterns 0 .root root keys ∧
      ∀ q, (c.get? q).isSome = true ↔ q ∈ keys := by
  rw [search, searchFor] at h
  obtain ⟨pr, pr', hkey, hrestrict, rfl⟩ := gives_attempt.mp (Walk.gives_of_solve_eq_some h)
  exact exists_walks_of_gives hw hkey (gives_restrict.mp hrestrict).1

/-- A search that succeeds binds what its plan promises, whatever its subject is and whatever is
bound around it.  It binds nothing of what its plan takes as keyed around it, all else that the
first scope keys, and nothing but what links that are not abnormal lead to; a plan of one scope says
exactly what is bound. -/
theorem domain_of_search (hw : scene.WellFormed)
    (h : scene.search (.make scene.patterns root master) subject view = .ok (some c)) :
    (∀ q ∈ master, c.get? q = none) ∧
    (∀ q ∈ ((Plan.make scene.patterns root master).scope 0).keyed, q ∉ master →
      (c.get? q).isSome = true) ∧
    (∀ q, (c.get? q).isSome = true → scene.patterns.Connects root q) ∧
    ((Plan.make scene.patterns root master).scopes.length = 1 → ∀ q, (c.get? q).isSome = true ↔
      q ∈ ((Plan.make scene.patterns root master).scope 0).keyed ∧ q ∉ master) := by
  obtain ⟨keys, hwalks, hkeys⟩ := exists_walks_of_search hw h
  obtain ⟨new, sc⟩ := (Plan.entered_amid scene.patterns master.eraseDups root).scoped
  have hreaches (q) (hq : (c.get? q).isSome = true) := hwalks.reaches sc .seed ((hkeys q).mp hq)
  have houtside (q) (hq : (c.get? q).isSome = true) : q ∉ master := fun hmaster =>
    (hreaches q hq).not_mem sc .seed (List.mem_eraseDups.mpr hmaster)
  have hkeyed (q) (hq : q ∈ ((Plan.make scene.patterns root master).scope 0).keyed)
      (hmaster : q ∉ master) : (c.get? q).isSome = true :=
    (hkeys q).mpr (hwalks.mem_of_scoped sc hq fun h => hmaster (List.mem_eraseDups.mp h))
  refine ⟨fun q hq => ?_, hkeyed, fun q hq => (hreaches q hq).connects, fun hlength q => ?_⟩
  · exact Option.not_isSome_iff_eq_none.mp fun hsome => houtside q hsome hq
  · constructor
    · intro hq
      exact ⟨(hreaches q hq).mem_keyed sc .seed hlength, houtside q hq⟩
    · rintro ⟨hq, hmaster⟩
      exact hkeyed q hq hmaster

/-- A node that has no child: it is a node, and not one with some child. -/
def childless : PatternSet Schema.base :=
  (((PatternSet.empty.push ⟨0, .standard none []⟩).push ⟨0, .anyNode 0⟩).push ⟨0, .notMatch 1⟩).push
    ⟨0, .matchAll [0, 2]⟩

theorem wellFormed_childless : childless.WellFormed :=
  (((PatternSet.wellFormed_empty.insert
    (rfl : PatternSet.insert _ 0 (.standard none []) = .ok _)).insert
    (rfl : PatternSet.insert _ 0 (.anyNode 0) = .ok _)).insert
    (rfl : PatternSet.insert _ 0 (.notMatch 1) = .ok _)).insert
    (rfl : PatternSet.insert _ 0 (.matchAll [0, 2]) = .ok _)

/-- A single node, held against it. -/
def loneNode : Scene Schema.base := ⟨Forest.empty.push ⟨0, none, []⟩, childless, 1⟩

/-- The search is told what the first pattern stands for, and the second occurs in the negation
only. -/
theorem domain_of_search_loneNode :
    loneNode.WellFormed ∧ ∃ c, loneNode.search (.make childless 3 [0]) (.node 0)
        [⟨[(0, .node 0)], []⟩] = .ok (some c) ∧
      c.get? 0 = none ∧ c.get? 1 = none ∧ (c.get? 2).isSome = true ∧ (c.get? 3).isSome = true := by
  have hw : loneNode.WellFormed :=
    ⟨Schema.wellFormed_base, Forest.wellShaped_empty.push (by rfl), wellFormed_childless⟩
  obtain ⟨c, hc⟩ : ∃ c, loneNode.search (.make childless 3 [0]) (.node 0) [⟨[(0, .node 0)], []⟩] =
      .ok (some c) := ⟨⟨[(2, .node 0), (3, .node 0)], []⟩, by decide +kernel⟩
  obtain ⟨hmaster, -, -, hone⟩ := domain_of_search hw hc
  have hdomain := hone (by decide +kernel)
  refine ⟨hw, c, hc, hmaster 0 (by simp), ?_, ?_, ?_⟩
  · rw [← Option.not_isSome_iff_eq_none, hdomain]
    decide +kernel
  · rw [hdomain]
    decide +kernel
  · rw [hdomain]
    decide +kernel

end Scene

end Espalier
