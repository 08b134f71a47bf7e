import Espalier.Proofs.Coupling
import Espalier.Proofs.Keying
import Espalier.Proofs.Matching
import Espalier.Proofs.TreeShaped

/-!
# Search decides matching

For patterns that are not shared a search finds something if and only if the pattern matches, and it
always comes to an answer.  An attempt matches what it follows and sets the rest aside; conversely,
where the pattern matches there are decisions under which all that is set aside holds.  What is set
aside for a region is settled by a search for an earlier pattern.
-/

namespace Espalier

variable {s : Schema} {root p : PatternId}

namespace Scene

variable {scene : Scene s} {plan : Plan}

/-- The abnormal links of a region have the outcome that its pattern asks for. -/
def RegionHolds (scene : Scene s) (region : Region root) : Prop :=
  region.evaluator.Holds (∀ l ∈ region.links, KeyMatches scene.Matches l.target.val l.key)

/-- The star of a run matches its elements. -/
def RunHolds (scene : Scene s) (run : Pending root) : Prop :=
  KeyMatches scene.Matches run.target.val run.key

/-- The links that a pattern has decided on hold. -/
def Holds (scene : Scene s) (d : Decided (Fin p)) : Prop :=
  LinksHold (fun (q : Fin p) y => scene.Matches q.val y) d.evaluator d.links

/-! ## What an attempt follows matches -/

/-- Nothing that is set aside speaks against a match. -/
structure Upholds (scene : Scene s) (pr : Progress root) : Prop where
  residuals : pr.residuals = []
  regions : ∀ region ∈ pr.regions, scene.RegionHolds region

theorem Upholds.of_extends {pr pr' : Progress root} (h : scene.Upholds pr')
    (hext : pr.Extends pr') :
    scene.Upholds pr where
  residuals := List.eq_nil_of_subset_nil (h.residuals ▸ hext.residuals)
  regions region hregion := h.regions region (hext.regions hregion)

theorem regionHolds_iff {h : p ≤ root} {scope : Nat} {evaluator : Evaluator}
    {links : List (DecidedLink (Fin p))} :
    scene.RegionHolds ⟨scope, p, evaluator, links.map (·.map (·.castLE h))⟩ ↔
      evaluator.Holds (∀ l ∈ links, KeyMatches (fun (q : Fin p) y => scene.Matches q.val y) l.target
        l.key) := by
  rw [RegionHolds, List.forall_mem_map]
  rfl

/-- The abnormal links of a pattern hold together if the region that they make does. -/
theorem holds_of_close {pr : Progress root} {h : p ≤ root} {scope : Nat} {d : Decided (Fin p)}
    (hl : ∀ l ∈ d.links, l.kind ≠ .abnormal → KeyMatches scene.Matches l.target.val l.key)
    (hup : scene.Upholds (pr.close h scope d)) : scene.Holds d := by
  refine ⟨hl, fun evaluator he => ?_⟩
  rcases pr.close_eq h scope d with ⟨-, hnone⟩ | ⟨evaluator', he', heq⟩
  · obtain ⟨rfl, hne⟩ := hnone evaluator he
    exact fun l hmem hk => (hne l hmem hk).elim
  · obtain rfl := Option.some.inj (he.symm.trans he')
    have hregion := hup.regions _ (by rw [heq]; exact List.mem_append_right _ List.mem_cons_self)
    rw [regionHolds_iff] at hregion
    simpa [and_imp] using hregion

theorem keyMatches_of_gives_key (hw : scene.WellFormed) {h : p ≤ root} {scope : Nat} {link : LinkId}
    {subject : Key} {pr pr' : Progress root} (htakes : scene.Takes p subject)
    (hg : (scene.key plan root p h scope link subject pr).Gives pr') (hup : scene.Upholds pr')
    (hruns : ∀ run ∈ pr'.pending, scene.RunHolds run) : KeyMatches scene.Matches p subject := by
  induction p using Nat.strongRecOn generalizing scope link subject pr pr' with
  | ind p ih =>
    rcases (gives_key hw).mp hg with ⟨-, rfl⟩ | ⟨-, -, d, pr₁, hd, he, hfold, rfl⟩
    · have hnil := hup.residuals
      simp [Progress.addResidual] at hnil
    · have hclose : pr₁.Extends (pr₁.close h scope d) := .close h scope d
      refine (keyMatches_iff hw htakes).mpr ⟨d.links, d.path, hd, he ▸ holds_of_close ?_ hup⟩
      -- What comes after a link only adds to what has to hold.
      refine Attempt.foldlM_invariant (fun done pr₂ => scene.Upholds pr₂ →
        (∀ run ∈ pr₂.pending, scene.RunHolds run) → ∀ l ∈ done, l.kind ≠ .abnormal →
          KeyMatches scene.Matches l.target.val l.key) (by simp) ?_ hfold
        (hup.of_extends hclose) (fun run hrun => hruns run (hclose.pending hrun))
      rintro done l rest pr₂ pr₃ heq hdone hfollow hup₃ hruns₃ l' hl' hk'
      have hext := extends_follow hw hfollow
      rcases List.mem_append.mp hl' with hl' | hl'
      · exact hdone (hup₃.of_extends hext) (fun run hrun => hruns₃ run (hext.pending hrun))
          l' hl' hk'
      · obtain rfl := List.mem_singleton.mp hl'
        rcases gives_follow.mp hfollow with ⟨-, hkey⟩ | ⟨-, rfl⟩ | ⟨hk, -⟩
        · have hshaped := hd.shaped hw (l := l') (by simp [heq])
          exact ih _ l'.target.isLt (takes_of_shaped hshaped) hkey hup₃ hruns₃
        · exact hruns₃ _ (List.mem_append_right _ List.mem_cons_self)
        · exact (hk' hk).elim

theorem runHolds_of_gives_keyRun (hw : scene.WellFormed) {pr pr' : Progress root}
    {run : Pending root} (hstar : scene.patterns.isStar run.target.val = true)
    (htakes : scene.Takes run.target.val run.key) (hg : (scene.keyRun plan pr run).Gives pr')
    (hup : scene.Upholds pr') : scene.RunHolds run := by
  rcases (gives_keyRun hw).mp hg with ⟨-, rfl⟩ | ⟨-, -, d, hd, he, rfl⟩
  · have hnil := hup.residuals
    simp [Progress.addResidual] at hnil
  · have habnormal := (hd.abnormal_of_isStar hstar).2
    refine (keyMatches_iff hw htakes).mpr ⟨d.links, d.path, hd, ?_⟩
    rw [← he, linksHold_of_abnormal habnormal]
    intro evaluator hev
    rw [Progress.closeRun, Option.mem_def.mp hev] at hup
    exact regionHolds_iff.mp (hup.regions _ (List.mem_append_right _ List.mem_cons_self))

theorem runHolds_of_gives_runs (hw : scene.WellFormed) {pr pr' : Progress root}
    {runs : List (Pending root)}
    (hstars : ∀ run ∈ runs, scene.patterns.isStar run.target.val = true)
    (htakes : ∀ run ∈ runs, scene.Takes run.target.val run.key)
    (hg : (runs.foldlM (scene.keyRun plan) pr).Gives pr') (hup : scene.Upholds pr') :
    ∀ run ∈ runs, scene.RunHolds run := by
  refine Attempt.foldlM_invariant (fun done pr₁ => scene.Upholds pr₁ →
    ∀ run ∈ done, scene.RunHolds run) (by simp) ?_ hg hup
  rintro done run rest pr₁ pr₂ rfl hdone hrun hup₂ run' hrun'
  rcases List.mem_append.mp hrun' with hrun' | hrun'
  · exact hdone (hup₂.of_extends (extends_keyRun hw hrun)) run' hrun'
  · obtain rfl := List.mem_singleton.mp hrun'
    exact runHolds_of_gives_keyRun hw (hstars run' (by simp)) (htakes run' (by simp)) hrun hup₂

/-! ## Where a pattern matches, an attempt finds it -/

/-- Whatever `pr'` sets aside in addition to `pr` holds. -/
structure AddsTo (scene : Scene s) (pr pr' : Progress root) : Prop where
  runs : ∀ run ∈ pr'.pending, run ∈ pr.pending ∨ scene.RunHolds run
  regions : ∀ region ∈ pr'.regions, region ∈ pr.regions ∨ scene.RegionHolds region

namespace AddsTo

variable {pr pr' pr'' : Progress root}

theorem refl (pr : Progress root) : scene.AddsTo pr pr := ⟨fun _ => .inl, fun _ => .inl⟩

theorem trans (h : scene.AddsTo pr pr') (h' : scene.AddsTo pr' pr'') : scene.AddsTo pr pr'' where
  runs run hrun := (h'.runs run hrun).elim (h.runs run) .inr
  regions region hregion := (h'.regions region hregion).elim (h.regions region) .inr

theorem addResidual (q : PatternId) (key : Key) : scene.AddsTo pr (pr.addResidual q key) :=
  ⟨fun _ => .inl, fun _ => .inl⟩

theorem coupled (q : PatternId) (key : Key) (path : Option (List Site)) :
    scene.AddsTo pr ((pr.coupled q key).recordPath q path) :=
  ⟨fun run hrun => .inl (by simpa using hrun), fun region hregion => .inl (by simpa using hregion)⟩

theorem addPending {run : Pending root} (hrun : scene.RunHolds run) :
    scene.AddsTo pr (pr.addPending run) where
  runs run' hrun' := by
    rcases List.mem_append.mp hrun' with hrun' | hrun'
    · exact .inl hrun'
    · obtain rfl := List.mem_singleton.mp hrun'
      exact .inr hrun
  regions _ := .inl

theorem addRegion {region : Region root} (hregion : scene.RegionHolds region) :
    scene.AddsTo pr (pr.addRegion region) where
  runs _ := .inl
  regions region' hregion' := by
    rcases List.mem_append.mp hregion' with hregion' | hregion'
    · exact .inl hregion'
    · obtain rfl := List.mem_singleton.mp hregion'
      exact .inr hregion

theorem close {h : p ≤ root} {scope : Nat} {d : Decided (Fin p)} (hd : scene.Holds d) :
    scene.AddsTo pr (pr.close h scope d) := by
  rcases pr.close_eq h scope d with ⟨heq, -⟩ | ⟨evaluator, he, heq⟩
  · rw [heq]
    exact refl pr
  · rw [heq]
    refine addRegion (regionHolds_iff.mpr ?_)
    simpa [and_imp] using hd.2 evaluator he

end AddsTo

/-- A pattern that matches is keyed, or a fault comes up on the way. -/
theorem ends_key (hw : scene.WellFormed) {h : p ≤ root} {scope : Nat} {link : LinkId}
    {subject : Key} {pr : Progress root} (htakes : scene.Takes p subject)
    (hm : KeyMatches scene.Matches p subject) :
    (scene.key plan root p h scope link subject pr).Ends (scene.AddsTo pr) := by
  induction p using Nat.strongRecOn generalizing scope link subject pr with
  | ind p ih =>
    cases hk : (plan.scope scope).isKeyer link with
    | false => exact .inl ⟨_, (gives_key hw).mpr (.inl ⟨hk, rfl⟩), .addResidual p subject⟩
    | true =>
      cases hp : pr.couplings.get? p with
      | some key => exact .inr ⟨_, (faults_key hw).mpr ⟨hk, .inl ⟨by rw [hp]; rfl, rfl⟩⟩⟩
      | none =>
        obtain ⟨links, path, hd, hl⟩ := (keyMatches_iff hw htakes).mp hm
        let d : Decided (Fin p) := ⟨links, (scene.patterns.query p).evaluator, path⟩
        have hfold : (d.links.foldlM (scene.follow plan h scope)
            ((pr.coupled p subject).recordPath p d.path)).Ends (scene.AddsTo pr) := by
          refine Attempt.ends_foldlM (.coupled p subject path) fun l hmem pr₁ hpr₁ => ?_
          have htakes' := takes_of_shaped (hd.shaped hw hmem)
          cases hkind : l.kind with
          | normal =>
            rcases ih _ l.target.isLt htakes' (hl.1 l hmem (by simp [hkind])) with
              ⟨pr₂, hg, hpr₂⟩ | ⟨e, hf⟩
            · exact .inl ⟨pr₂, gives_follow.mpr (.inl ⟨hkind, hg⟩), hpr₁.trans hpr₂⟩
            · exact .inr ⟨e, faults_follow.mpr ⟨hkind, hf⟩⟩
          | multiplicity =>
            refine .inl ⟨_, gives_follow.mpr (.inr (.inl ⟨hkind, rfl⟩)),
              hpr₁.trans (.addPending ?_)⟩
            exact hl.1 l hmem (by simp [hkind])
          | abnormal => exact .inl ⟨pr₁, gives_follow.mpr (.inr (.inr ⟨hkind, rfl⟩)), hpr₁⟩
        rcases hfold with ⟨pr₁, hg, hpr₁⟩ | ⟨e, hf⟩
        · refine .inl ⟨pr₁.close h scope d, ?_, hpr₁.trans (.close hl)⟩
          exact (gives_key hw).mpr (.inr ⟨hk, hp, d, pr₁, hd, rfl, hg, rfl⟩)
        · exact .inr ⟨e, (faults_key hw).mpr ⟨hk, .inr ⟨hp, .inr ⟨d, hd, rfl, hf⟩⟩⟩⟩

theorem ends_keyRun (hw : scene.WellFormed) {pr : Progress root} {run : Pending root}
    (hstar : scene.patterns.isStar run.target.val = true)
    (htakes : scene.Takes run.target.val run.key) (hrun : scene.RunHolds run) :
    (scene.keyRun plan pr run).Ends (scene.AddsTo pr) := by
  cases hk : (plan.scope run.scope).isKeyer run.link with
  | false => exact .inl ⟨_, (gives_keyRun hw).mpr (.inl ⟨hk, rfl⟩), .addResidual _ _⟩
  | true =>
    cases hp : pr.couplings.get? run.target.val with
    | some key => exact .inr ⟨_, faults_keyRun.mpr ⟨hk, .inl ⟨by rw [hp]; rfl, rfl⟩⟩⟩
    | none =>
      obtain ⟨links, path, hd, hl⟩ := (keyMatches_iff hw htakes).mp hrun
      let d : Decided (Fin run.target.val) :=
        ⟨links, (scene.patterns.query run.target.val).evaluator, path⟩
      refine .inl ⟨_, (gives_keyRun hw).mpr (.inr ⟨hk, hp, d, hd, rfl, rfl⟩), ?_⟩
      refine (AddsTo.coupled run.target.val run.key none).trans ?_
      rw [Progress.closeRun]
      cases he : d.evaluator with
      | none => exact .refl _
      | some evaluator =>
        refine .addRegion (regionHolds_iff.mpr ?_)
        exact (linksHold_of_abnormal (hd.abnormal_of_isStar hstar).2).mp hl evaluator he

theorem ends_runs (hw : scene.WellFormed) {pr : Progress root} {runs : List (Pending root)}
    (hstars : ∀ run ∈ runs, scene.patterns.isStar run.target.val = true)
    (htakes : ∀ run ∈ runs, scene.Takes run.target.val run.key)
    (hruns : ∀ run ∈ runs, scene.RunHolds run) :
    (runs.foldlM (scene.keyRun plan) pr).Ends (scene.AddsTo pr) := by
  refine Attempt.ends_foldlM (.refl pr) fun run hrun pr₁ hpr₁ => ?_
  rcases ends_keyRun hw (hstars run hrun) (htakes run hrun) (hruns run hrun) with
    ⟨pr₂, hg, hpr₂⟩ | hf
  · exact .inl ⟨pr₂, hg, hpr₁.trans hpr₂⟩
  · exact .inr hf

/-! ## Regions -/

/-- The outcome of a region whose links are settled by searches that decide matching. -/
theorem exists_evaluate_eq_ok {view : View} {region : Region root}
    {inner : Fin root → Plan → Key → View → Except Fault (Option Couplings)}
    (h : ∀ l ∈ region.links, ∃ nested r,
      (plan.scope region.scope).nested? region.pattern l.slot = some nested ∧
      inner l.target nested l.key view = .ok r ∧
      (r.isSome = true ↔ KeyMatches scene.Matches l.target.val l.key)) :
    ∃ b, evaluate plan view inner region = .ok b ∧ (b = true ↔ scene.RegionHolds region) := by
  have hall : ∃ b, allMatch plan view inner region.scope region.pattern region.links = .ok b ∧
      (b = true ↔ ∀ l ∈ region.links, KeyMatches scene.Matches l.target.val l.key) := by
    generalize region.links = links at h
    induction links with
    | nil => exact ⟨true, rfl, by simp⟩
    | cons l links ih =>
      simp only [List.mem_cons, forall_eq_or_imp] at h ⊢
      obtain ⟨⟨nested, r, hnested, hr, hiff⟩, hrest⟩ := h
      obtain ⟨b, hb, hbiff⟩ := ih hrest
      rw [allMatch, hnested]
      dsimp only
      rw [hr]
      cases r with
      | none => exact ⟨false, rfl, by simpa using fun hl => absurd (hiff.mpr hl) (by simp)⟩
      | some c => exact ⟨b, hb, by rw [hbiff]; simp [← hiff]⟩
  obtain ⟨b, hb, hiff⟩ := hall
  refine ⟨region.evaluator.combine b, by rw [evaluate, hb]; rfl, ?_⟩
  rw [RegionHolds, ← hiff]
  cases region.evaluator <;> cases b <;> simp [Evaluator.combine, Evaluator.Holds]

/-! ## Searches -/

/-- In a tree no attempt comes to a fault. -/
theorem not_faults_attempt (hw : scene.WellFormed) {keyed : List PatternId} {view : View}
    {x : NodeId} {e : Fault} (ha : scene.patterns.Apart keyed root)
    (hstar : scene.patterns.isStar root = false) (hbinds : view.Binds keyed) :
    ¬ (scene.attempt (.amid scene.patterns keyed root) root (.node x) view
      fun q nested key view => scene.searchFor q.val nested key view).Faults e := by
  intro hf
  obtain ⟨root', keyed', x', -, ha', hstar', hpass⟩ :=
    exists_passFaults hw (handedOn_apart _) ha hstar hbinds hf
  obtain ⟨q, rfl⟩ := hpass.eq_keyedTwice hw hstar'
  exact Plan.not_contested_of_apart ha' (hpass.contested hw hstar')

/-- A search for `root` comes to an answer, which is positive if and only if `root` matches. -/
def SearchDecides (scene : Scene s) (root : PatternId) : Prop :=
  ∀ {keyed : List PatternId} {view : View} {x : NodeId}, scene.patterns.Apart keyed root →
    scene.patterns.isStar root = false → view.Binds keyed →
    ∃ r, scene.searchFor root (.amid scene.patterns keyed root) (.node x) view = .ok r ∧
      (r.isSome = true ↔ scene.Matches root x)

/-- Regions are settled by searches that decide matching. -/
theorem evaluate_iff (ih : ∀ q, q < root → scene.SearchDecides q) {keyed : List PatternId}
    {view : View} {pr : Progress root} (hbinds : view.Binds keyed)
    (hc : Covered scene plan scene.patterns.Apart (· ∈ keyed) pr []) {region : Region root}
    (hregion : region ∈ pr.regions) :
    evaluate plan (pr.couplings :: view)
        (fun q nested key view => scene.searchFor q.val nested key view) region = .ok true ↔
      scene.RegionHolds region := by
  obtain ⟨keyed', entry, seed, new, sc, ha, hp, hkeyed, hlinks⟩ := hc.regions region hregion
  obtain ⟨b, hb, hiff⟩ : ∃ b, evaluate plan (pr.couplings :: view)
      (fun q nested key view => scene.searchFor q.val nested key view) region = .ok b ∧
      (b = true ↔ scene.RegionHolds region) := by
    refine exists_evaluate_eq_ok fun l hl => ?_
    obtain ⟨hguard, hstar, y, hy⟩ := hlinks l hl
    obtain ⟨r, hr, hiff⟩ := ih l.target.val l.target.isLt (x := y)
      (handedOn_apart _ sc ha hp (.inr hguard)) hstar
      (fun q hq => hbinds.isSome_get? (hkeyed q hq))
    refine ⟨_, r, sc.nested hp hguard, ?_, ?_⟩
    · rw [hy]
      exact hr
    · rw [hy, keyMatches_node]
      exact hiff
  rw [hb, ← hiff]
  exact ⟨fun h => Except.ok.inj h, fun h => by rw [h]⟩

theorem searchDecides (hw : scene.WellFormed) (root : PatternId) : scene.SearchDecides root := by
  induction root using Nat.strongRecOn with
  | ind root ih =>
    intro keyed view x ha hstar hbinds
    have htakes : scene.Takes root (.node x) := hstar
    have hentered := Plan.entered_amid scene.patterns keyed root
    obtain ⟨new, sc⟩ := hentered.scoped
    have hcovered {pr} (hkey : (scene.key (.amid scene.patterns keyed root) root root
        (Nat.le_refl root) 0 .root (.node x) .start).Gives pr) :=
      (keyCovers hw (handedOn_apart _) root sc ha .seed (fun q => id) htakes .start hkey).1
    have hfaults (e : Fault) := not_faults_attempt hw (e := e) (x := x) ha hstar hbinds
    obtain ⟨r, hr, hiff⟩ := Walk.exists_solve_eq_ok hfaults
    refine ⟨r, by rw [searchFor]; exact hr, hiff.trans ?_⟩
    rw [← keyMatches_node scene.Matches]
    constructor
    · rintro ⟨c, hg⟩
      obtain ⟨pr, pr', hkey, hrestrict, -⟩ := gives_attempt.mp hg
      obtain ⟨hruns, -, hregions⟩ := gives_restrict.mp hrestrict
      obtain ⟨hc, -⟩ := covered_attempt hw (handedOn_apart _) ha hentered hstar hkey hruns
      have hup : scene.Upholds pr' := ⟨hc.residuals_eq_nil_of_apart, fun region hregion =>
        (evaluate_iff ih hbinds hc hregion).mp (hregions region hregion)⟩
      have hstars := (hcovered hkey).runs
      refine keyMatches_of_gives_key hw htakes hkey
        (hup.of_extends (extends_foldlM (fun _ _ _ _ => extends_keyRun hw) hruns)) ?_
      exact runHolds_of_gives_runs hw (fun run hrun => (hstars run hrun).1)
        (fun run hrun => (hstars run hrun).2.1) hruns hup
    · intro hm
      rcases ends_key hw htakes hm with ⟨pr, hkey, hpr⟩ | ⟨e, hf⟩
      · have hstars := (hcovered hkey).runs
        rcases ends_runs hw (fun run hrun => (hstars run hrun).1)
          (fun run hrun => (hstars run hrun).2.1)
          (fun run hrun => (hpr.runs run hrun).resolve_left List.not_mem_nil) with
          ⟨pr', hruns, hpr'⟩ | ⟨e, hf⟩
        · obtain ⟨hc, -⟩ := covered_attempt hw (handedOn_apart _) ha hentered hstar hkey hruns
          refine ⟨_, gives_attempt.mpr ⟨pr, pr', hkey, gives_restrict.mpr ⟨hruns, ?_, ?_⟩, rfl⟩⟩
          · rw [hc.residuals_eq_nil_of_apart]
            simp
          · intro region hregion
            refine (evaluate_iff ih hbinds hc hregion).mpr ?_
            exact ((hpr.trans hpr').regions region hregion).resolve_left List.not_mem_nil
        · exact (hfaults e (faults_attempt.mpr (.inr ⟨pr, hkey, faults_restrict_of_runs hf⟩))).elim
      · exact (hfaults e (faults_attempt.mpr (.inl hf))).elim

/-- A search for a pattern that is a tree, none of it bound around the search, always comes to an
answer, and finds something if and only if the pattern matches the node. -/
theorem isSome_search_iff_matches (hw : scene.WellFormed) {master : List PatternId} {view : View}
    (hstar : scene.patterns.isStar root = false) (htree : scene.patterns.TreeShaped root)
    (hmaster : ∀ q ∈ master, ¬ scene.patterns.Linked root q) (hbinds : view.Binds master)
    (x : NodeId) :
    ∃ r, scene.search (.make scene.patterns root master) (.node x) view = .ok r ∧
      (r.isSome = true ↔ scene.Matches root x) :=
  searchDecides hw root ⟨htree, fun q hq => hmaster q (List.mem_eraseDups.mp hq)⟩ hstar
    fun q hq => hbinds q (List.mem_eraseDups.mp hq)

/-- A pattern for a list whose first element is anything but an empty list, and a list of leaves. -/
def headed : Scene lists where
  forest := (Forest.empty.push ⟨0, none, []⟩).push ⟨1, none, [.sequence [0, 0]]⟩
  patterns := (((PatternSet.empty.push ⟨1, .standard none [.sequence []]⟩).push
    ⟨0, .notMatch 0⟩).push ⟨0, .star none⟩).push ⟨1, .standard none [.sequence [1, 2]]⟩
  watermark := 0

theorem search_headed : headed.search (.make headed.patterns 3 []) (.node 1) [] =
    .ok (some ⟨[(2, .run true [0]), (1, .node 0), (3, .node 1)], []⟩) := by
  decide +kernel

theorem wellFormed_headed : headed.WellFormed where
  schema := Schema.wellFormed_base.define define_lists
  forest := (Forest.wellShaped_empty.push (by rfl)).push (by rfl)
  patterns := (((PatternSet.wellFormed_empty.insert
    (rfl : PatternSet.insert _ 1 (.standard none [.sequence []]) = .ok _)).insert
    (rfl : PatternSet.insert _ 0 (.notMatch 0) = .ok _)).insert
    (rfl : PatternSet.insert _ 0 (.star none) = .ok _)).insert
    (rfl : PatternSet.insert _ 1 (.standard none [.sequence [1, 2]]) = .ok _)

/-- The search finds the negated element and the run after it, so the pattern matches the list. -/
theorem matches_headed :
    headed.patterns.TreeShaped 3 ∧
      headed.search (.make headed.patterns 3 []) (.node 1) [] =
        .ok (some ⟨[(2, .run true [0]), (1, .node 0), (3, .node 1)], []⟩) ∧
      headed.Matches 3 1 := by
  have htree : headed.patterns.TreeShaped 3 := PatternSet.treeShaped_of_nodup (by decide)
  have hbinds : View.Binds [] [] := fun q hq => (List.not_mem_nil hq).elim
  refine ⟨htree, search_headed, ?_⟩
  obtain ⟨r, hr, hiff⟩ := isSome_search_iff_matches wellFormed_headed rfl htree
    (fun q hq => (List.not_mem_nil hq).elim) hbinds 1
  rw [search_headed] at hr
  cases hr
  exact hiff.mp rfl

end Scene

end Espalier
