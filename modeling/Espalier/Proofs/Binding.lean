import Espalier.Proofs.Passes
import Espalier.Proofs.Plan

/-!
# Every residual link is bound

A pattern that is keyed in a scope which an attempt has entered is coupled by the end of the
attempt: the keyers of the scope lead to it, and keyers are followed.  So a residual link finds its
target coupled, in the attempt or around it, and so does the search of a region.
-/

namespace Espalier

variable {s : Schema} {root p : PatternId}

/-- A star has abnormal links only. -/
theorem PatternSet.not_leads_of_isStar {ps : PatternSet s} {slot : Nat} {q : PatternId}
    (hp : ps.isStar p = true) : ¬ ps.Leads p slot q := by
  rintro ⟨l, hl, hk, -, -⟩
  rw [← isStar_pattern] at hp
  rw [query] at hl
  cases hagent : (ps.pattern p).agent with
  | star restriction =>
    rw [hagent] at hl
    obtain ⟨r, -, rfl⟩ := List.mem_map.mp hl
    exact hk rfl
  | _ => simp [hagent, Agent.isStar] at hp

/-- The pattern `q` is coupled, or one of the runs of `rest` is going to couple it. -/
def Progress.Claims (plan : Plan) (pr : Progress root) (rest : List (Pending root))
    (q : PatternId) : Prop :=
  (pr.couplings.get? q).isSome = true ∨
    ∃ run ∈ rest, (plan.scope run.scope).isKeyer run.link = true ∧ run.target.val = q

theorem Progress.Extends.claims {plan : Plan} {pr pr' : Progress root} {q : PatternId}
    (h : pr.Extends pr') (hq : pr.Claims plan pr.pending q) : pr'.Claims plan pr'.pending q :=
  hq.imp h.isSome_get? fun h' => h'.imp fun _ hrun => hrun.imp_left (h.pending ·)

/-- In a scope that is entered where `P` holds, a link other than its keyer leads to `q`. -/
def Plan.Strays (ps : PatternSet s) (plan : Plan) (P : List PatternId → PatternId → Prop)
    (q : PatternId) : Prop :=
  ∃ i keyed entry seed new link, plan.Scoped ps i keyed entry seed new ∧ P keyed seed ∧
    Considered ps new entry seed link q ∧ (plan.scope i).isKeyer link = false

/-- Whatever is set aside belongs to a scope of the plan, entered where `P` holds, and all that is
keyed there is claimed by now or keyed `around` the part of the attempt in question. -/
structure Covered (scene : Scene s) (plan : Plan) (P : List PatternId → PatternId → Prop)
    (around : PatternId → Prop) (pr : Progress root) (rest : List (Pending root)) : Prop where
  residuals : ∀ r ∈ pr.residuals,
    (around r.1 ∨ pr.Claims plan rest r.1) ∧ plan.Strays scene.patterns P r.1
  runs : ∀ run ∈ rest, scene.patterns.isStar run.target.val = true ∧
    scene.Takes run.target.val run.key ∧
    ∃ keyed link seed new, plan.Scoped scene.patterns run.scope keyed link seed new ∧ P keyed seed ∧
      Considered scene.patterns new link seed run.link run.target.val ∧
      ∀ q ∈ (plan.scope run.scope).keyed, around q ∨ pr.Claims plan rest q
  regions : ∀ region ∈ pr.regions,
    ∃ keyed link seed new, plan.Scoped scene.patterns region.scope keyed link seed new ∧
      P keyed seed ∧ region.pattern ∈ new ∧
      (∀ q ∈ (plan.scope region.scope).keyed, around q ∨ pr.Claims plan rest q) ∧
      ∀ l ∈ region.links, scene.patterns.Guards region.pattern l.slot l.target.val ∧
        scene.patterns.isStar l.target.val = false ∧ ∃ x, l.key = .node x

namespace Covered

variable {scene : Scene s} {plan : Plan} {P : List PatternId → PatternId → Prop}
  {around around' : PatternId → Prop} {pr pr' : Progress root} {rest rest' : List (Pending root)}

theorem start : Covered scene plan P around (.start : Progress root) [] :=
  ⟨by simp [Progress.start], by simp, by simp [Progress.start]⟩

/-- What is known of the progress stays true as more is claimed. -/
theorem transfer (hc : Covered scene plan P around pr rest)
    (hq : ∀ q, around q ∨ pr.Claims plan rest q → around' q ∨ pr'.Claims plan rest' q)
    (hresiduals : pr'.residuals ⊆ pr.residuals) (hrest : rest' ⊆ rest)
    (hregions : pr'.regions ⊆ pr.regions) : Covered scene plan P around' pr' rest' where
  residuals r hr := (hc.residuals r (hresiduals hr)).imp_left (hq _)
  runs run hrun := by
    obtain ⟨hstar, htakes, keyed, link, seed, new, sc, hP, hl, hkeyed⟩ := hc.runs run (hrest hrun)
    exact ⟨hstar, htakes, keyed, link, seed, new, sc, hP, hl, fun q h => hq q (hkeyed q h)⟩
  regions region hregion := by
    obtain ⟨keyed, link, seed, new, sc, hP, hp, hkeyed, hlinks⟩ :=
      hc.regions region (hregions hregion)
    exact ⟨keyed, link, seed, new, sc, hP, hp, fun q h => hq q (hkeyed q h), hlinks⟩

theorem addResidual {q : PatternId} {subject : Key} (hc : Covered scene plan P around pr rest)
    (hq : around q ∨ pr.Claims plan rest q) (hstrays : plan.Strays scene.patterns P q) :
    Covered scene plan P around (pr.addResidual q subject) rest where
  residuals r hr := by
    rcases List.mem_append.mp hr with hr | hr
    · exact hc.residuals r hr
    · obtain rfl := List.mem_singleton.mp hr
      exact ⟨hq, hstrays⟩
  runs := hc.runs
  regions := hc.regions

theorem addPending {run : Pending root} (hc : Covered scene plan P around pr rest)
    (hstar : scene.patterns.isStar run.target.val = true)
    (htakes : scene.Takes run.target.val run.key) {keyed new : List PatternId} {link : LinkId}
    {seed : PatternId} (sc : plan.Scoped scene.patterns run.scope keyed link seed new)
    (hP : P keyed seed) (hl : Considered scene.patterns new link seed run.link run.target.val)
    (hkeyed : ∀ q ∈ (plan.scope run.scope).keyed, around q) :
    Covered scene plan P around (pr.addPending run) (rest ++ [run]) := by
  have hsub : ∀ q, around q ∨ pr.Claims plan rest q →
      around q ∨ (pr.addPending run).Claims plan (rest ++ [run]) q := by
    rintro q (hq | hq | ⟨run', hrun', hk⟩)
    · exact .inl hq
    · exact .inr (.inl hq)
    · exact .inr (.inr ⟨run', by simp [hrun'], hk⟩)
  constructor
  case residuals => exact fun r hr => (hc.residuals r hr).imp_left (hsub _)
  case runs =>
    intro run' hrun'
    rcases List.mem_append.mp hrun' with hrun' | hrun'
    · obtain ⟨hstar, htakes, keyed, link, seed, new, sc, hP, hl, hkeyed⟩ := hc.runs run' hrun'
      exact ⟨hstar, htakes, keyed, link, seed, new, sc, hP, hl, fun q h => hsub q (hkeyed q h)⟩
    · obtain rfl := List.mem_singleton.mp hrun'
      exact ⟨hstar, htakes, keyed, link, seed, new, sc, hP, hl, fun q h => .inl (hkeyed q h)⟩
  case regions =>
    intro region hregion
    obtain ⟨keyed, link, seed, new, sc, hP, hp, hkeyed, hlinks⟩ := hc.regions region hregion
    exact ⟨keyed, link, seed, new, sc, hP, hp, fun q h => hsub q (hkeyed q h), hlinks⟩

/-- A region of the abnormal links that a pattern of a scope has decided. -/
theorem addRegion {i : Nat} {evaluator : Evaluator} {h : p ≤ root} {subject : Key}
    {links links' : List (DecidedLink (Fin p))} {path : Option (List Site)}
    {keyed new : List PatternId} {link : LinkId} {seed : PatternId} (hw : scene.WellFormed)
    (hc : Covered scene plan P around pr rest)
    (sc : plan.Scoped scene.patterns i keyed link seed new) (hP : P keyed seed) (hp : p ∈ new)
    (hkeyed : ∀ q ∈ (plan.scope i).keyed, around q ∨ pr.Claims plan rest q)
    (hd : scene.Decides p subject links path)
    (hsub : ∀ l ∈ links', l ∈ links ∧ l.kind = .abnormal) :
    Covered scene plan P around
      (pr.addRegion ⟨i, p, evaluator, links'.map (·.map (·.castLE h))⟩) rest where
  residuals := hc.residuals
  runs := hc.runs
  regions region hregion := by
    rcases List.mem_append.mp hregion with hregion | hregion
    · exact hc.regions region hregion
    · obtain rfl := List.mem_singleton.mp hregion
      refine ⟨keyed, link, seed, new, sc, hP, hp, hkeyed, ?_⟩
      intro l hl
      obtain ⟨l, hmem, rfl⟩ := List.mem_map.mp hl
      obtain ⟨hl, hk⟩ := hsub l hmem
      refine ⟨⟨l.declared, hd.declared_mem hw hl, hk, rfl, rfl⟩, ?_⟩
      exact (hd.shaped hw hl).exists_node (by simp [hk])

end Covered

/-- What holds where a scope is entered holds wherever a link leads out of it: by a disjunct into
the scope of that, or by an abnormal link into a region. -/
def HandedOn (ps : PatternSet s) (P : List PatternId → PatternId → Prop) : Prop :=
  ∀ {plan : Plan} {i keyed link seed new p slot q}, plan.Scoped ps i keyed link seed new →
    P keyed seed → p ∈ new → ps.isDisjunction p = true ∧ ps.Leads p slot q ∨ ps.Guards p slot q →
    P (plan.scope i).keyed q

theorem handedOn_true (ps : PatternSet s) : HandedOn ps fun _ _ => True := fun _ _ _ _ => trivial

/-- Every scope that an attempt may come to is entered in some way, and what is handed on holds
there. -/
theorem Plan.Open.exists_scoped {ps : PatternSet s} {P : List PatternId → PatternId → Prop}
    {keyed : List PatternId} {root : PatternId} {i : Nat} (hands : HandedOn ps P)
    (hP : P keyed root) (h : (amid ps keyed root).Open i) :
    ∃ keyed' entry seed new, (amid ps keyed root).Scoped ps i keyed' entry seed new ∧
      P keyed' seed := by
  induction h with
  | start =>
    obtain ⟨new, sc⟩ := (entered_amid ps keyed root).scoped
    exact ⟨_, _, _, new, sc, hP⟩
  | disjunct _ hj ih =>
    obtain ⟨keyed', entry, seed, new, sc, hP'⟩ := ih
    obtain ⟨hp, hd, q, hlead, hentered⟩ := sc.of_disjunct hj
    obtain ⟨new', sc'⟩ := hentered.scoped
    exact ⟨_, _, q, new', sc', hands sc hP' hp (.inl ⟨hd, hlead⟩)⟩

namespace Scene

variable {scene : Scene s} {plan : Plan} {P : List PatternId → PatternId → Prop}

/-! ## The first pass -/

theorem Decides.leads (hw : scene.WellFormed) {subject : Key} {links : List (DecidedLink (Fin p))}
    {path : Option (List Site)} (hd : scene.Decides p subject links path) {l : DecidedLink (Fin p)}
    (hl : l ∈ links) (hk : l.kind ≠ .abnormal) : scene.patterns.Leads p l.slot l.target.val :=
  ⟨l.declared, hd.declared_mem hw hl, hk, rfl, rfl⟩

theorem takes_of_shaped {l : DecidedLink (Fin p)}
    (h : l.Shaped fun q => scene.patterns.isStar q.val) : scene.Takes l.target.val l.key := by
  rw [DecidedLink.Shaped] at h
  split at h
  next hx => rw [hx]; exact h.2
  next hx => rw [hx]; exact h.2

/-- A disjunction has no multiplicity links. -/
theorem Decides.isDisjunction_eq_false {subject : Key} {links : List (DecidedLink (Fin p))}
    {path : Option (List Site)} (hd : scene.Decides p subject links path) {l : DecidedLink (Fin p)}
    (hl : l ∈ links) (hk : l.kind = .multiplicity) : scene.patterns.isDisjunction p = false := by
  rw [Bool.eq_false_iff, PatternSet.isDisjunction, ← PatternSet.isDisjunction_pattern]
  intro hdisj
  obtain ⟨l', rfl, hk', -⟩ := hd.eq_singleton hdisj
  rw [List.mem_singleton.mp hl, hk'] at hk
  cases hk

/-- The first pass from `p` on claims what the keyers of the scope lead to, and covers what it sets
aside. -/
def KeyCovers (scene : Scene s) (plan : Plan) (P : List PatternId → PatternId → Prop)
    (root p : PatternId) : Prop :=
  ∀ {around : PatternId → Prop} {h : p ≤ root} {i : Nat} {keyed new : List PatternId}
    {entry link : LinkId} {seed : PatternId} {subject : Key} {pr pr' : Progress root},
    plan.Scoped scene.patterns i keyed entry seed new → P keyed seed →
    Considered scene.patterns new entry seed link p → (∀ q ∈ (plan.scope i).keyed, around q) →
    scene.Takes p subject → Covered scene plan P around pr pr.pending →
    (scene.key plan root p h i link subject pr).Gives pr' →
    Covered scene plan P around pr' pr'.pending ∧
      ∀ l q, Within scene.patterns (plan.scope i) link p l q → pr'.Claims plan pr'.pending q

/-- A disjunct is followed in the scope of its own, and all that is keyed there gets claimed. -/
theorem covered_disjunct {around : PatternId → Prop} {i : Nat} {keyed new : List PatternId}
    {entry : LinkId} {seed q : PatternId} {slot : Nat} {h : q ≤ root} {subject : Key}
    {pr pr' : Progress root} (hands : HandedOn scene.patterns P)
    (ih : scene.KeyCovers plan P root q) (sc : plan.Scoped scene.patterns i keyed entry seed new)
    (hP : P keyed seed) (hp : p ∈ new) (hd : scene.patterns.isDisjunction p = true)
    (hlead : scene.patterns.Leads p slot q) (haround : ∀ q ∈ (plan.scope i).keyed, around q)
    (htakes : scene.Takes q subject) (hc : Covered scene plan P around pr pr.pending)
    (hg : (scene.key plan root q h (((plan.scope i).disjunct? p slot).getD i) (.child p slot)
      subject pr).Gives pr') : Covered scene plan P around pr' pr'.pending := by
  obtain ⟨j, hj, hentered⟩ := sc.disjunct hp hd hlead
  obtain ⟨new', sc'⟩ := hentered.scoped
  rw [hj, Option.getD_some] at hg
  have hc' : Covered scene plan P (fun r => around r ∨ r ∈ (plan.scope j).keyed) pr pr.pending :=
    hc.transfer (fun r => Or.imp_left .inl) (fun _ => id) (fun _ => id) (fun _ => id)
  obtain ⟨hcov, hclaims⟩ := ih sc' (hands sc hP hp (.inl ⟨hd, hlead⟩)) .seed
    (fun r => .inr) htakes hc' hg
  refine hcov.transfer ?_ (fun _ => id) (fun _ => id) (fun _ => id)
  rintro r ((hr | hr) | hr)
  · exact .inl hr
  · rw [sc'.keyed_eq] at hr
    rcases List.mem_append.mp hr with hr | hr
    · exact .inl (haround r hr)
    · obtain ⟨l, hwithin⟩ := sc'.exists_within hr
      exact .inr (hclaims l r hwithin)
  · exact .inr hr

theorem covered_follow (hw : scene.WellFormed) (hands : HandedOn scene.patterns P)
    (ih : ∀ q < p, scene.KeyCovers plan P root q) {around : PatternId → Prop} {h : p ≤ root}
    {i : Nat} {keyed new : List PatternId} {entry : LinkId} {seed : PatternId} {subject : Key}
    {links : List (DecidedLink (Fin p))} {path : Option (List Site)} {l : DecidedLink (Fin p)}
    {pr pr' : Progress root} (sc : plan.Scoped scene.patterns i keyed entry seed new)
    (hP : P keyed seed) (hp : p ∈ new) (haround : ∀ q ∈ (plan.scope i).keyed, around q)
    (hd : scene.Decides p subject links path) (hl : l ∈ links)
    (hc : Covered scene plan P around pr pr.pending)
    (hg : (scene.follow plan h i pr l).Gives pr') :
    Covered scene plan P around pr' pr'.pending ∧
      (l.kind ≠ .abnormal → scene.patterns.isDisjunction p = false → ∀ l' q,
        Within scene.patterns (plan.scope i) (.child p l.slot) l.target.val l' q →
          pr'.Claims plan pr'.pending q) := by
  have htakes := takes_of_shaped (hd.shaped hw hl)
  rcases gives_follow.mp hg with ⟨hk, hg⟩ | ⟨hk, rfl⟩ | ⟨hk, rfl⟩
  · have hlead := hd.leads hw hl (by simp [hk])
    cases hdisj : scene.patterns.isDisjunction p with
    | false =>
      rw [sc.disjunct?_eq_none hdisj, Option.getD_none] at hg
      obtain ⟨hcov, hclaims⟩ :=
        ih _ l.target.isLt sc hP (.child hp hdisj hlead) haround htakes hc hg
      exact ⟨hcov, fun _ _ => hclaims⟩
    | true =>
      refine ⟨?_, by simp⟩
      exact covered_disjunct hands (ih _ l.target.isLt) sc hP hp hdisj hlead haround htakes hc hg
  · have hlead := hd.leads hw hl (by simp [hk])
    have hdisj := hd.isDisjunction_eq_false hl hk
    have hstar := (hd.shaped hw hl).target_isStar hk
    refine ⟨hc.addPending hstar htakes sc hP (.child hp hdisj hlead) haround,
      fun _ _ l' q hwithin => ?_⟩
    -- Keyers lead from a star to itself only.
    rcases hwithin.eq_or_step with ⟨-, rfl⟩ | ⟨slot, t, -, ht, -⟩
    · exact .inr ⟨_, List.mem_append_right _ (List.mem_singleton.mpr rfl),
        hwithin.isKeyer_first, rfl⟩
    · exact (PatternSet.not_leads_of_isStar hstar ht).elim
  · exact ⟨hc, fun hne => (hne hk).elim⟩

theorem keyCovers (hw : scene.WellFormed) (hands : HandedOn scene.patterns P) (p : PatternId) :
    scene.KeyCovers plan P root p := by
  induction p using Nat.strongRecOn with
  | ind p ih =>
    intro around h i keyed new entry link seed subject pr pr' sc hP hl haround htakes hc hg
    rcases (gives_key hw).mp hg with ⟨hk, rfl⟩ | ⟨hk, hp, d, pr₁, hd, -, hfold, rfl⟩
    · refine ⟨hc.addResidual (.inl (haround p (sc.closed hl)))
        ⟨i, keyed, entry, seed, new, link, sc, hP, hl, hk⟩, fun l q hwithin => ?_⟩
      rw [hwithin.isKeyer_first] at hk
      cases hk
    · have hpnew := sc.mem_of_isKeyer hl hk
      -- Carried along the links: what is claimed through those followed so far.
      have hlinks := Attempt.foldlM_invariant (fun done pr₂ =>
        ((pr.coupled p subject).recordPath p d.path).Extends pr₂ ∧
        Covered scene plan P around pr₂ pr₂.pending ∧
        ∀ l ∈ done, l.kind ≠ .abnormal → scene.patterns.isDisjunction p = false →
          ∀ l' q, Within scene.patterns (plan.scope i) (.child p l.slot) l.target.val l' q →
            pr₂.Claims plan pr₂.pending q) ?_ ?_ hfold
      · obtain ⟨hext, hcov, hclaims⟩ := hlinks
        have hclose : pr₁.Extends (pr₁.close h i d) := .close h i d
        refine ⟨?_, fun l q hwithin => hclose.claims ?_⟩
        · rcases pr₁.close_eq h i d with ⟨heq, -⟩ | ⟨evaluator, -, heq⟩
          · rwa [heq]
          · rw [heq]
            exact hcov.addRegion hw sc hP hpnew (fun q hq => .inl (haround q hq)) hd (by simp)
        · rcases hwithin.eq_or_step with ⟨-, rfl⟩ | ⟨slot, t, hdisj,
            ⟨l', hl', hk', rfl, rfl⟩, hwithin⟩
          · exact .inl (hext.isSome_get? (by simp))
          · obtain ⟨l'', hl'', rfl⟩ := hd.exists_declared hw
              (by rw [PatternSet.isDisjunction_pattern]; exact hdisj) hl' hk'
            exact hclaims l'' hl'' hk' hdisj l q hwithin
      · refine ⟨.refl _, hc.transfer (fun q => ?_) (by simp) (by simp) (by simp), by simp⟩
        exact Or.imp_right (Progress.Extends.coupled hp subject d.path).claims
      · rintro done l rest pr₂ pr₃ heq ⟨hext, hcov, hclaims⟩ hfollow
        have hmem : l ∈ d.links := by simp [heq]
        have hext' := extends_follow hw hfollow
        obtain ⟨hcov', hclaims'⟩ :=
          covered_follow hw hands ih sc hP hpnew haround hd hmem hcov hfollow
        refine ⟨hext.trans hext', hcov', fun l' hl' hk' hdisj l'' q hwithin => ?_⟩
        rcases List.mem_append.mp hl' with hl' | hl'
        · exact hext'.claims (hclaims l' hl' hk' hdisj l'' q hwithin)
        · obtain rfl := List.mem_singleton.mp hl'
          exact hclaims' hk' hdisj l'' q hwithin

/-! ## The second pass -/

/-- A run that is dealt with is either coupled or residual, and what it claimed stays claimed. -/
theorem covered_keyRun (hw : scene.WellFormed) {around : PatternId → Prop} {pr pr' : Progress root}
    {run : Pending root} {rest : List (Pending root)}
    (hc : Covered scene plan P around pr (run :: rest))
    (hg : (scene.keyRun plan pr run).Gives pr') :
    Covered scene plan P around pr' rest ∧
      ∀ q, pr.Claims plan (run :: rest) q → pr'.Claims plan rest q := by
  obtain ⟨hstar, htakes, keyed, link, seed, new, sc, hP, hl, hkeyed⟩ := hc.runs run (by simp)
  rcases (gives_keyRun hw).mp hg with ⟨hk, rfl⟩ | ⟨hk, hp, d, hd, -, rfl⟩
  · have hclaims (q) (hq : pr.Claims plan (run :: rest) q) : pr.Claims plan rest q := by
      rcases hq with hq | ⟨run', hrun', hk', ht⟩
      · exact .inl hq
      · rcases List.mem_cons.mp hrun' with rfl | hrun'
        · rw [hk] at hk'
          cases hk'
        · exact .inr ⟨run', hrun', hk', ht⟩
    refine ⟨?_, hclaims⟩
    refine (hc.transfer (fun q => Or.imp_right (hclaims q)) (fun _ => id)
      (List.subset_cons_self run rest) (fun _ => id)).addResidual ?_
        ⟨run.scope, keyed, link, seed, new, run.link, sc, hP, hl, hk⟩
    exact (hkeyed _ (sc.closed hl)).imp_right (hclaims _)
  · have hcoupled := Progress.Extends.coupled hp run.key none
    have hclaims (q) (hq : pr.Claims plan (run :: rest) q) :
        (pr.coupled run.target.val run.key).Claims plan rest q := by
      rcases hq with hq | ⟨run', hrun', hk', rfl⟩
      · exact .inl (hcoupled.isSome_get? hq)
      · rcases List.mem_cons.mp hrun' with rfl | hrun'
        · exact .inl (by simp)
        · exact .inr ⟨run', hrun', hk', rfl⟩
    have hcov : Covered scene plan P around (pr.coupled run.target.val run.key) rest :=
      hc.transfer (fun q => Or.imp_right (hclaims q)) (fun _ => id) (List.subset_cons_self run rest)
        (fun _ => id)
    refine ⟨?_, fun q hq => by simpa [Progress.Claims] using hclaims q hq⟩
    rw [Progress.closeRun]
    cases d.evaluator with
    | none => exact hcov
    | some evaluator =>
      refine hcov.addRegion hw sc hP (sc.mem_of_isKeyer hl hk)
        (fun q hq => (hkeyed q hq).imp_right (hclaims q)) hd fun l hl => ⟨hl, ?_⟩
      by_contra hne
      exact PatternSet.not_leads_of_isStar hstar (hd.leads hw hl hne)

theorem covered_runs (hw : scene.WellFormed) {around : PatternId → Prop} {pr pr' : Progress root}
    {runs : List (Pending root)} (hc : Covered scene plan P around pr runs)
    (hg : (runs.foldlM (scene.keyRun plan) pr).Gives pr') :
    Covered scene plan P around pr' [] ∧ ∀ q, pr.Claims plan runs q → pr'.Claims plan [] q := by
  induction runs generalizing pr with
  | nil =>
    obtain rfl := Attempt.gives_foldlM_nil.mp hg
    exact ⟨hc, fun _ => id⟩
  | cons run runs ih =>
    obtain ⟨pr₁, hrun, hruns⟩ := Attempt.gives_foldlM_cons.mp hg
    obtain ⟨hc₁, hclaims₁⟩ := covered_keyRun hw hc hrun
    obtain ⟨hc', hclaims⟩ := ih hc₁ hruns
    exact ⟨hc', fun q hq => hclaims q (hclaims₁ q hq)⟩

theorem covered_attempt (hw : scene.WellFormed) (hands : HandedOn scene.patterns P)
    {keyed : List PatternId} {x : NodeId} {pr pr' : Progress root} (hP : P keyed root)
    (hentered : plan.Entered scene.patterns 0 keyed .root root)
    (hstar : scene.patterns.isStar root = false)
    (hkey : (scene.key plan root root (Nat.le_refl root) 0 .root (.node x) .start).Gives pr)
    (hruns : (pr.pending.foldlM (scene.keyRun plan) pr).Gives pr') :
    Covered scene plan P (· ∈ keyed) pr' [] ∧
      ∀ q ∈ (plan.scope 0).keyed, q ∈ keyed ∨ pr'.Claims plan [] q := by
  obtain ⟨new, sc⟩ := hentered.scoped
  have htakes : scene.Takes root (.node x) := hstar
  obtain ⟨hc, hclaims⟩ := keyCovers hw hands root sc hP .seed (fun q => id) htakes .start hkey
  obtain ⟨hc', hclaims'⟩ := covered_runs hw hc hruns
  have hkeyed (q) (hq : q ∈ (plan.scope 0).keyed) : q ∈ keyed ∨ pr'.Claims plan [] q := by
    rw [sc.keyed_eq] at hq
    rcases List.mem_append.mp hq with hq | hq
    · exact .inl hq
    · obtain ⟨l, hwithin⟩ := sc.exists_within hq
      exact .inr (hclaims' q (hclaims l q hwithin))
  refine ⟨hc'.transfer ?_ (fun _ => id) (fun _ => id) (fun _ => id), hkeyed⟩
  rintro q (hq | hq)
  · exact hkeyed q hq
  · exact .inr hq

/-! ## Faults -/

/-- A pattern that is given a key of its shape does not fault but by being keyed twice. -/
theorem eq_keyedTwice_of_faults_key (hw : scene.WellFormed) {h : p ≤ root} {i : Nat} {link : LinkId}
    {subject : Key} {pr : Progress root} {e : Fault} (htakes : scene.Takes p subject)
    (hf : (scene.key plan root p h i link subject pr).Faults e) : ∃ q, e = .keyedTwice q := by
  induction p using Nat.strongRecOn generalizing i link subject pr with
  | ind p ih =>
    obtain ⟨-, ⟨-, rfl⟩ | ⟨-, hf | ⟨d, hd, -, hf⟩⟩⟩ := (faults_key hw).mp hf
    · exact ⟨p, rfl⟩
    · exact (not_faults_decide hw htakes hf).elim
    · obtain ⟨done, l, rest, pr₁, heq, -, hf⟩ := Attempt.exists_of_faults_foldlM hf
      have hshaped := hd.shaped hw (l := l) (by simp [heq])
      exact ih _ l.target.isLt (takes_of_shaped hshaped) (faults_follow.mp hf).2

theorem eq_keyedTwice_of_faults_runs (hw : scene.WellFormed) {pr : Progress root} {e : Fault}
    {runs : List (Pending root)} (htakes : ∀ run ∈ runs, scene.Takes run.target.val run.key)
    (hf : (runs.foldlM (scene.keyRun plan) pr).Faults e) : ∃ q, e = .keyedTwice q := by
  obtain ⟨done, run, rest, pr₁, heq, -, hf⟩ := Attempt.exists_of_faults_foldlM hf
  obtain ⟨-, ⟨-, rfl⟩ | ⟨-, hf⟩⟩ := faults_keyRun.mp hf
  · exact ⟨_, rfl⟩
  · exact (not_faults_decide hw (htakes run (by simp [heq])) hf).elim

theorem exists_of_allMatch_eq_error {view : View} {i : Nat} {links : List (DecidedLink (Fin root))}
    {inner : Fin root → Plan → Key → View → Except Fault (Option Couplings)} {e : Fault}
    (h : allMatch plan view inner i p links = .error e) :
    ∃ l ∈ links, (plan.scope i).nested? p l.slot = none ∨
      ∃ nested, (plan.scope i).nested? p l.slot = some nested ∧
        inner l.target nested l.key view = .error e := by
  induction links with
  | nil => cases h
  | cons l links ih =>
    rw [allMatch] at h
    split at h
    next hnone => exact ⟨l, by simp, .inl hnone⟩
    next nested hnested =>
      split at h
      next e' he =>
        cases h
        exact ⟨l, by simp, .inr ⟨nested, hnested, he⟩⟩
      next => cases h
      next =>
        obtain ⟨l', hl', h⟩ := ih h
        exact ⟨l', List.mem_cons_of_mem _ hl', h⟩

theorem allMatch_eq_error_of_evaluate {view : View} {region : Region root} {e : Fault}
    {inner : Fin root → Plan → Key → View → Except Fault (Option Couplings)}
    (h : evaluate plan view inner region = .error e) :
    allMatch plan view inner region.scope region.pattern region.links = .error e := by
  rw [evaluate] at h
  cases hall : allMatch plan view inner region.scope region.pattern region.links with
  | error e' =>
    rw [hall] at h
    cases h
    rfl
  | ok b =>
    rw [hall] at h
    cases h

end Scene

/-- The couplings around a search bind the patterns of `keyed`. -/
def View.Binds (view : View) (keyed : List PatternId) : Prop :=
  ∀ q ∈ keyed, (view.get? q).isSome = true

theorem View.get?_cons (c : Couplings) (view : View) (q : PatternId) :
    View.get? (c :: view) q = (c.get? q).or (view.get? q) := by
  rw [View.get?, List.findSome?_cons]
  cases c.get? q <;> rfl

theorem View.Binds.isSome_get? {view : View} {keyed : List PatternId} (h : view.Binds keyed)
    {plan : Plan} {pr : Progress root} {q : PatternId} (hq : q ∈ keyed ∨ pr.Claims plan [] q) :
    (View.get? (pr.couplings :: view) q).isSome = true := by
  rw [View.get?_cons, Option.isSome_or]
  rcases hq with hq | hq | ⟨run, hrun, -⟩
  · simp [h q hq]
  · simp [hq]
  · cases hrun

/-- The plan of a search, or that of a region of it, however deep. -/
inductive Plan.Encloses (plan : Plan) : Plan → Prop where
  | refl : Encloses plan plan
  | nested {inner innermost : Plan} {i slot : Nat} {p : PatternId} (h : Encloses plan inner)
      (ho : inner.Open i) (hn : (inner.scope i).nested? p slot = some innermost) :
      Encloses plan innermost

theorem Plan.Encloses.trans {plan inner innermost : Plan} (h : plan.Encloses inner)
    (h' : inner.Encloses innermost) : plan.Encloses innermost := by
  induction h' with
  | refl => exact h
  | nested _ ho hn ih => exact .nested ih ho hn

theorem Plan.Encloses.exists_amid {ps : PatternSet s} {keyed : List PatternId} {inner : Plan}
    (h : (amid ps keyed root).Encloses inner) : ∃ keyed' root', inner = amid ps keyed' root' := by
  induction h with
  | refl => exact ⟨keyed, root, rfl⟩
  | nested _ ho hn ih =>
    obtain ⟨keyed', root', rfl⟩ := ih
    obtain ⟨_, _, _, _, sc, -⟩ := ho.exists_scoped (handedOn_true ps) trivial
    obtain ⟨q, -, -, rfl⟩ := sc.of_nested hn
    exact ⟨_, q, rfl⟩

namespace Scene

variable {scene : Scene s} {P : List PatternId → PatternId → Prop}

/-- One of the two passes of an attempt to match `root` against `x` comes to the fault `e` while it
couples patterns. -/
def PassFaults (scene : Scene s) (plan : Plan) (root : PatternId) (x : NodeId) (e : Fault) : Prop :=
  (scene.key plan root root (Nat.le_refl root) 0 .root (.node x) .start).Faults e ∨
    ∃ pr, (scene.key plan root root (Nat.le_refl root) 0 .root (.node x) .start).Gives pr ∧
      (pr.pending.foldlM (scene.keyRun plan) pr).Faults e

/-- An attempt comes to a fault only while it couples patterns, or while the attempt of a region
does: residual links find their targets bound, and regions find their plans. -/
theorem exists_passFaults (hw : scene.WellFormed) (hands : HandedOn scene.patterns P)
    {keyed : List PatternId} {view : View} {x : NodeId} {e : Fault} (hP : P keyed root)
    (hstar : scene.patterns.isStar root = false) (hbinds : view.Binds keyed)
    (hf : (scene.attempt (.amid scene.patterns keyed root) root (.node x) view
      fun q nested key view => scene.searchFor q.val nested key view).Faults e) :
    ∃ root' keyed' x',
      (Plan.amid scene.patterns keyed root).Encloses (.amid scene.patterns keyed' root') ∧
      P keyed' root' ∧ scene.patterns.isStar root' = false ∧
      scene.PassFaults (.amid scene.patterns keyed' root') root' x' e := by
  induction root using Nat.strongRecOn generalizing keyed view x with
  | ind root ih =>
    rcases faults_attempt.mp hf with hf | ⟨pr, hkey, hf⟩
    · exact ⟨root, keyed, x, .refl, hP, hstar, .inl hf⟩
    rcases faults_restrict hf with hf | ⟨pr', hruns, hf⟩
    · exact ⟨root, keyed, x, .refl, hP, hstar, .inr ⟨pr, hkey, hf⟩⟩
    obtain ⟨hc, -⟩ := covered_attempt hw hands hP (Plan.entered_amid _ _ _) hstar hkey hruns
    rcases hf with ⟨r, hr, hf⟩ | ⟨region, hregion, hf⟩
    · obtain ⟨bound, hbound⟩ :=
        Option.isSome_iff_exists.mp (hbinds.isSome_get? (hc.residuals r hr).1)
      rw [View.get?_cons] at hbound
      rw [View.restrict, hbound] at hf
      dsimp only at hf
      split at hf <;> cases hf
    · obtain ⟨keyed', link, seed, new, sc, hP', hp, hkeyed, hlinks⟩ := hc.regions region hregion
      obtain ⟨l, hl, hf⟩ := exists_of_allMatch_eq_error (allMatch_eq_error_of_evaluate hf)
      obtain ⟨hguard, hstar', y, hy⟩ := hlinks l hl
      have hnested := sc.nested hp hguard
      rcases hf with hnone | ⟨nested, hsome, hf⟩
      · rw [hnested] at hnone
        cases hnone
      · obtain rfl := Option.some.inj (hnested.symm.trans hsome)
        rw [hy, searchFor] at hf
        obtain ⟨root', keyed'', x', hencl, hrest⟩ := ih l.target.val l.target.isLt
          (hands sc hP' hp (.inr hguard)) hstar' (fun q hq => hbinds.isSome_get? (hkeyed q hq))
          (Walk.faults_of_solve_eq_error hf)
        exact ⟨root', keyed'', x',
          (Plan.Encloses.nested .refl sc.isOpen hnested).trans hencl, hrest⟩

theorem PassFaults.eq_keyedTwice (hw : scene.WellFormed) {keyed : List PatternId} {x : NodeId}
    {e : Fault} (hstar : scene.patterns.isStar root = false)
    (hf : scene.PassFaults (.amid scene.patterns keyed root) root x e) :
    ∃ q, e = .keyedTwice q := by
  have htakes : scene.Takes root (.node x) := hstar
  rcases hf with hf | ⟨pr, hkey, hf⟩
  · exact eq_keyedTwice_of_faults_key hw htakes hf
  · obtain ⟨new, sc⟩ := (Plan.entered_amid scene.patterns keyed root).scoped
    obtain ⟨hc, -⟩ := keyCovers hw (handedOn_true _) root sc trivial .seed (fun q => id) htakes
      .start hkey
    exact eq_keyedTwice_of_faults_runs hw (fun run hrun => (hc.runs run hrun).2.1) hf

/-- A search whose patterns around it are bound ends with no fault but that of a pattern keyed
twice. -/
theorem eq_keyedTwice_of_searchFor (hw : scene.WellFormed) {keyed : List PatternId} {view : View}
    {x : NodeId} {e : Fault} (hstar : scene.patterns.isStar root = false)
    (hbinds : view.Binds keyed)
    (hf : scene.searchFor root (.amid scene.patterns keyed root) (.node x) view = .error e) :
    ∃ q, e = .keyedTwice q := by
  rw [searchFor] at hf
  obtain ⟨root', keyed', x', -, -, hstar', hf⟩ := exists_passFaults hw (handedOn_true _) trivial
    hstar hbinds (Walk.faults_of_solve_eq_error hf)
  exact hf.eq_keyedTwice hw hstar'

/-- The couplings of a search bind, with those around it, all that its plan keys whatever disjuncts
are taken. -/
theorem binds_of_searchFor (hw : scene.WellFormed) {keyed : List PatternId} {view : View}
    {x : NodeId} {c : Couplings} (hstar : scene.patterns.isStar root = false)
    (hbinds : view.Binds keyed)
    (h : scene.searchFor root (.amid scene.patterns keyed root) (.node x) view = .ok (some c)) :
    View.Binds (c :: view) ((Plan.amid scene.patterns keyed root).scope 0).keyed := by
  rw [searchFor] at h
  obtain ⟨pr, pr', hkey, hrestrict, rfl⟩ := gives_attempt.mp (Walk.gives_of_solve_eq_some h)
  obtain ⟨-, hkeyed⟩ := covered_attempt hw (handedOn_true _) trivial (Plan.entered_amid _ _ _) hstar
    hkey (gives_restrict.mp hrestrict).1
  exact fun q hq => hbinds.isSome_get? (hkeyed q hq)

end Scene

end Espalier
