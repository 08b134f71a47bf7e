import Espalier.Proofs.Coupling

/-!
# What green grass takes

Green grass takes nodes from before the watermark only.  It asks for that when it is coupled; as
children come before their parents, all that is below the node is from before the watermark, too.
Any other link to the same pattern is residual: what it offers is compared with what the pattern is
coupled to, by structure, and so it may be new as long as it is equal to something old.
-/

namespace Espalier

variable {s : Schema}

theorem Forest.Way.le {f : Forest s} {x y : NodeId} {above : List NodeId} (h : f.Way x above y) :
    y ≤ x := by
  induction h with
  | refl => exact Nat.le_refl x
  | step _ hz ih => exact Nat.le_trans (Nat.le_of_lt (f.child_lt_of_mem hz)) ih

/-- A pattern that comes first and is no star takes the first element. -/
theorem SequenceSplit.exists_of_not_isStar {α : Type} {isStar : α → Bool} {slot : Nat} {q : α}
    {qs : List α} {ys : List NodeId} {links : List (DecidedLink α)} (hq : isStar q = false)
    (h : SequenceSplit isStar slot (q :: qs) ys links) :
    ∃ y rest links', ys = y :: rest ∧ links = ⟨slot, q, .normal, .node y⟩ :: links' ∧
      SequenceSplit isStar (slot + 1) qs rest links' := by
  cases h with
  | star hstar => cases hq.symm.trans hstar
  | one _ h => exact ⟨_, _, _, rfl, rfl, h⟩

namespace Scene

variable {scene : Scene s} {x : NodeId}

/-- The node and all that is below it are from before the watermark. -/
def Untouched (scene : Scene s) (x : NodeId) : Prop :=
  ∀ above y, scene.forest.Way x above y → y < scene.watermark

theorem untouched_iff_lt : scene.Untouched x ↔ x < scene.watermark := by
  constructor
  · intro h
    exact h [] x .refl
  · intro hx above y hy
    exact Nat.lt_of_le_of_lt hy.le hx

/-- Green grass that has decided on its links has an untouched node. -/
theorem Decides.untouched {g : PatternId} {through : Fin g}
    (hagent : (scene.patterns.pattern g).agent = .greenGrass through) {key : Key}
    {links : List (DecidedLink (Fin g))} {path : Option (List Site)}
    (h : scene.Decides g key links path) : ∃ x, key = .node x ∧ scene.Untouched x := by
  cases key with
  | node x =>
    obtain ⟨-, hoffers⟩ := h
    rw [hagent] at hoffers
    exact ⟨x, rfl, untouched_iff_lt.mpr hoffers.1⟩
  | run ordered items =>
    obtain ⟨restriction, hstar, -⟩ := h
    cases hagent.symm.trans hstar

/-- In an attempt that succeeds, every link that is followed has coupled its target to what it
offers, or is residual.  What green grass is coupled to is untouched.  What a residual link offers
to it is equal to that, or else to what the search around this one has bound it to. -/
theorem untouched_of_attempt (hw : scene.WellFormed) {plan : Plan} {root : PatternId}
    {subject : Key} {view : View}
    {inner : Fin root → Plan → Key → View → Except Fault (Option Couplings)}
    {pr pr' : Progress root}
    (hkey : (scene.key plan root root (Nat.le_refl root) 0 .root subject .start).Gives pr)
    (hrestrict : (scene.restrict plan view inner pr).Gives pr') :
    pr'.Meets [] root subject ∧
    (∀ q key, pr'.couplings.get? q = some key → scene.Settled pr' [] q key) ∧
    ∀ g through, (scene.patterns.pattern g).agent = .greenGrass through →
      (∀ key, pr'.couplings.get? g = some key → ∃ x, key = .node x ∧ scene.Untouched x) ∧
      ∀ key, (g, key) ∈ pr'.residuals →
        (∃ x y, key = .node x ∧ pr'.couplings.get? g = some (.node y) ∧ scene.Untouched y ∧
          scene.forest.compare y x = .eq) ∨
        pr'.couplings.get? g = none ∧
          ∃ key', view.get? g = some key' ∧ key'.compare scene.forest key = .eq := by
  obtain ⟨hruns, hresiduals, -⟩ := gives_restrict.mp hrestrict
  obtain ⟨hroot, hsettled⟩ := settled_attempt hw scene.inherited_true trivial hkey hruns
  have hsettled (q) (key) (hq : pr'.couplings.get? q = some key) : scene.Settled pr' [] q key :=
    (hsettled q key hq).2
  refine ⟨hroot, hsettled, fun g through hagent => ?_⟩
  have hcoupled (key) (hg : pr'.couplings.get? g = some key) :
      ∃ x, key = .node x ∧ scene.Untouched x := by
    obtain ⟨links, ⟨path, hd, -⟩, -⟩ := hsettled g key hg
    exact hd.untouched hagent
  refine ⟨hcoupled, fun key hmem => ?_⟩
  obtain ⟨key', hbound, hcompare⟩ := exists_of_meets hresiduals (.inr (.inl hmem))
  cases hg : pr'.couplings.get? g with
  | none =>
    rw [hg, Option.none_or] at hbound
    exact .inr ⟨rfl, key', hbound, hcompare⟩
  | some bound =>
    rw [hg, Option.some_or] at hbound
    obtain rfl := Option.some.inj hbound
    obtain ⟨y, rfl, hy⟩ := hcoupled bound hg
    cases key with
    | node x => exact .inl ⟨x, y, rfl, rfl, hy, hcompare⟩
    | run ordered items => cases hcompare

/-- A list of the same piece of green grass twice, and a list of two leaves of which the second is
new. -/
def regrown : Scene lists where
  forest := twins.forest
  patterns := ((PatternSet.empty.push ⟨0, .standard none []⟩).push ⟨0, .greenGrass 0⟩).push
    ⟨1, .standard none [.sequence [1, 1]]⟩
  watermark := 1

theorem wellFormed_regrown : regrown.WellFormed where
  schema := wellFormed_twins.schema
  forest := wellFormed_twins.forest
  patterns := ((PatternSet.wellFormed_empty.insert
    (rfl : PatternSet.insert _ 0 (.standard none []) = .ok _)).insert
    (rfl : PatternSet.insert _ 0 (.greenGrass 0) = .ok _)).insert
    (rfl : PatternSet.insert _ 1 (.standard none [.sequence [1, 1]]) = .ok _)

/-- The second leaf is offered to the green grass by a residual link, and it is taken although it is
new, as it is equal to the first one. -/
theorem untouched_of_attempt_regrown :
    ∃ (pr pr' : Progress 2) (y : NodeId),
      (regrown.key (.make regrown.patterns 2 []) 2 2 (Nat.le_refl 2) 0 .root (.node 2)
        .start).Gives pr ∧
      (regrown.restrict (.make regrown.patterns 2 []) []
        (fun q nested key view => regrown.searchFor q.val nested key view) pr).Gives pr' ∧
      (1, .node 1) ∈ pr'.residuals ∧ ¬ regrown.Untouched 1 ∧
      pr'.couplings.get? 1 = some (.node y) ∧ regrown.Untouched y ∧
      regrown.forest.compare y 1 = .eq := by
  have hsearch : regrown.searchFor 2 (.make regrown.patterns 2 []) (.node 2) [] =
      .ok (some ⟨[(0, .node 0), (1, .node 0), (2, .node 2)], []⟩) := by
    decide +kernel
  rw [searchFor] at hsearch
  obtain ⟨pr, pr', hkey, hrestrict, hcouplings⟩ :=
    gives_attempt.mp (Walk.gives_of_solve_eq_some hsearch)
  obtain ⟨-, hsettled, hgrass⟩ := untouched_of_attempt wellFormed_regrown hkey hrestrict
  obtain ⟨-, hresiduals⟩ := hgrass 1 0 rfl
  have hnew : ¬ regrown.Untouched 1 := fun h => absurd (untouched_iff_lt.mp h) (by decide)
  -- The list has only one way to share out its two elements.
  obtain ⟨links, ⟨path, ⟨-, -, hshare, -⟩, -, hmeets⟩, -⟩ :=
    hsettled 2 (.node 2) (by rw [← hcouplings]; rfl)
  have hlast : ⟨1, 1, .normal, .node 1⟩ ∈ links := by
    have hshare : MembersShare (fun q : Fin 2 => regrown.patterns.isStar q.val) 0 [.sequence [1, 1]]
        [.sequence [0, 1]] links := hshare
    cases hshare with
    | cons hsplit hrest =>
      obtain ⟨_, _, _, hfirst, rfl, hsplit⟩ := SequenceSplit.exists_of_not_isStar rfl hsplit
      cases hfirst
      obtain ⟨_, _, _, hsecond, rfl, -⟩ := hsplit.exists_of_not_isStar rfl
      cases hsecond
      simp
  have hresidual : (1, .node 1) ∈ pr'.residuals := by
    rcases hmeets _ hlast (by simp) with h | h | ⟨run, hrun, -⟩
    · rw [← hcouplings] at h
      cases h
    · exact h
    · cases hrun
  rcases hresiduals _ hresidual with ⟨x, y, hx, hy, hold, hcompare⟩ | ⟨hnone, -⟩
  · cases hx
    exact ⟨pr, pr', y, hkey, hrestrict, hresidual, hnew, hy, hold, hcompare⟩
  · rw [← hcouplings] at hnone
    cases hnone

end Scene

end Espalier
