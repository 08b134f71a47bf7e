import Espalier.Proofs.Contested
import Espalier.Rule.Basic

/-!
# What an attempt keys

The first pass of an attempt follows a walk of its plan and the second keys what is left of it, so a
pattern that an attempt keys twice comes twice in a walk: it is contested.
-/

namespace Espalier

variable {s : Schema}

/-- How often `q` is coupled or going to be by the runs of `rest`. -/
def Progress.times {root : PatternId} (plan : Plan) (pr : Progress root)
    (rest : List (Pending root)) (q : PatternId) : Nat :=
  (pr.couplings.get? q).isSome.toNat +
    rest.countP fun run => (plan.scope run.scope).isKeyer run.link && run.target.val == q

namespace Progress

variable {root : PatternId} {plan : Plan} {pr pr' : Progress root} {rest : List (Pending root)}
  {q q' : PatternId}

theorem times_congr (h : pr.couplings.get? q = pr'.couplings.get? q) :
    pr.times plan rest q = pr'.times plan rest q := by
  rw [times, times, h]

theorem times_coupled {subject : Key} (hq : pr.couplings.get? q' = none) :
    (pr.coupled q' subject).times plan rest q = pr.times plan rest q + [q'].count q := by
  rw [times, times, get?_coupled]
  by_cases h : q = q'
  · subst h
    simp [hq, Nat.add_comm]
  · simp [h, Ne.symm h]

theorem times_append {run : Pending root} :
    pr.times plan (rest ++ [run]) q = pr.times plan (run :: rest) q := by
  rw [times, times, (List.perm_append_singleton run rest).countP_eq]

theorem times_cons {run : Pending root} : pr.times plan (run :: rest) q = pr.times plan rest q +
    if (plan.scope run.scope).isKeyer run.link then [run.target.val].count q else 0 := by
  rw [times, times, List.countP_cons, ← Nat.add_assoc]
  cases hk : (plan.scope run.scope).isKeyer run.link with
  | false => simp
  | true => simp [List.count_cons]

end Progress

namespace Scene

variable {scene : Scene s} {plan : Plan} {root p : PatternId}

/-- The links among those decided that are followed, by their slots and targets. -/
def followed (links : List (DecidedLink (Fin p))) : List (Nat × PatternId) :=
  (links.filter fun l => l.kind ≠ .abnormal).map fun l => (l.slot, l.target.val)

theorem Decides.follows (hw : scene.WellFormed) {subject : Key} {links : List (DecidedLink (Fin p))}
    {path : Option (List Site)} (hd : scene.Decides p subject links path) :
    scene.patterns.Follows p (followed links) := by
  rw [PatternSet.Follows]
  split
  next hdisj =>
    rw [PatternSet.isDisjunction, ← PatternSet.isDisjunction_pattern] at hdisj
    obtain ⟨l, rfl, hk, hl⟩ := hd.eq_singleton hdisj
    refine ⟨l.slot, l.target.val, ⟨l.declared, hl, ?_, rfl, rfl⟩, ?_⟩
    · simp [DecidedLink.declared, hk]
    · simp [followed, hk]
  next hdisj =>
    rw [PatternSet.isDisjunction, ← PatternSet.isDisjunction_pattern] at hdisj
    have hperm := (hd.declared_perm hw (Bool.eq_false_iff.mpr hdisj)).map fun l =>
      (l.slot, l.target.val)
    rwa [List.map_map] at hperm

/-- The first pass from `p` on follows a walk: a pattern is claimed as often as the walk keys it,
and a pattern that is keyed twice was claimed before or comes twice in the walk. -/
def KeyWalks (scene : Scene s) (plan : Plan) (root p : PatternId) : Prop :=
  ∀ {h : p ≤ root} {i : Nat} {keyed new : List PatternId} {entry link : LinkId} {seed : PatternId}
    {subject : Key} {pr : Progress root}, plan.Scoped scene.patterns i keyed entry seed new →
    Considered scene.patterns new entry seed link p → scene.Takes p subject →
    (∀ pr', (scene.key plan root p h i link subject pr).Gives pr' →
      ∃ keys, plan.Walks scene.patterns i link p keys ∧
        ∀ q, pr'.times plan pr'.pending q = pr.times plan pr.pending q + keys.count q) ∧
    ∀ q, (scene.key plan root p h i link subject pr).Faults (.keyedTwice q) →
      ∃ keys, plan.Walks scene.patterns i link p keys ∧
        2 ≤ pr.times plan pr.pending q + keys.count q

section Links

variable {h : p ≤ root} {i : Nat} {keyed new : List PatternId} {entry : LinkId} {seed : PatternId}
  {subject : Key} {links : List (DecidedLink (Fin p))} {path : Option (List Site)}

/-- A link that is followed starts a walk where it is followed. -/
theorem walks_of_gives_follow (hw : scene.WellFormed) (ih : ∀ q < p, scene.KeyWalks plan root q)
    (sc : plan.Scoped scene.patterns i keyed entry seed new) (hp : p ∈ new)
    (hd : scene.Decides p subject links path) {l : DecidedLink (Fin p)} (hl : l ∈ links)
    (hk : l.kind ≠ .abnormal) {pr pr' : Progress root}
    (hg : (scene.follow plan h i pr l).Gives pr') :
    ∃ keys, plan.Walks scene.patterns (plan.next i p l.slot) (.child p l.slot) l.target.val keys ∧
      ∀ q, pr'.times plan pr'.pending q = pr.times plan pr.pending q + keys.count q := by
  rcases gives_follow.mp hg with ⟨-, hg⟩ | ⟨hmult, rfl⟩ | ⟨habn, -⟩
  · obtain ⟨_, _, _, _, sc', hl', -⟩ := sc.exists_next hp (hd.leads hw hl hk)
    exact (ih _ l.target.isLt sc' hl' (takes_of_shaped (hd.shaped hw hl))).1 pr' hg
  · -- A run is keyed later, if at all, and a star leads no further.
    rw [Plan.next_eq_of_not_isDisjunction sc (hd.isDisjunction_eq_false hl hmult)]
    have hstar := (hd.shaped hw hl).target_isStar hmult
    cases hkeyer : (plan.scope i).isKeyer (.child p l.slot) with
    | false =>
      refine ⟨[], .residual hkeyer, fun q => Progress.times_append.trans ?_⟩
      rw [Progress.times_cons, if_neg (by simp [hkeyer])]
      rfl
    | true =>
      refine ⟨[l.target.val], .keyed hkeyer (PatternSet.follows_nil_of_isStar hstar) .nil,
        fun q => Progress.times_append.trans ?_⟩
      rw [Progress.times_cons, if_pos hkeyer]
      rfl
  · exact (hk habn).elim

theorem followed_cons_of_ne {l : DecidedLink (Fin p)} {ls : List (DecidedLink (Fin p))}
    (hk : l.kind ≠ .abnormal) : followed (l :: ls) = (l.slot, l.target.val) :: followed ls := by
  simp [followed, hk]

theorem followed_cons_of_eq {l : DecidedLink (Fin p)} {ls : List (DecidedLink (Fin p))}
    (hk : l.kind = .abnormal) : followed (l :: ls) = followed ls := by
  simp [followed, hk]

theorem walksAll_of_gives_links (hw : scene.WellFormed) (ih : ∀ q < p, scene.KeyWalks plan root q)
    (sc : plan.Scoped scene.patterns i keyed entry seed new) (hp : p ∈ new)
    (hd : scene.Decides p subject links path) {ls : List (DecidedLink (Fin p))} (hls : ls ⊆ links)
    {pr pr' : Progress root} (hg : (ls.foldlM (scene.follow plan h i) pr).Gives pr') :
    ∃ keys, plan.WalksAll scene.patterns i p (followed ls) keys ∧
      ∀ q, pr'.times plan pr'.pending q = pr.times plan pr.pending q + keys.count q := by
  induction ls generalizing pr with
  | nil =>
    obtain rfl := Attempt.gives_foldlM_nil.mp hg
    exact ⟨[], .nil, by simp⟩
  | cons l ls ihl =>
    obtain ⟨pr₁, hfirst, hrest⟩ := Attempt.gives_foldlM_cons.mp hg
    obtain ⟨hl, hls⟩ := List.cons_subset.mp hls
    obtain ⟨keys', hwalks', htimes'⟩ := ihl hls hrest
    by_cases hk : l.kind = .abnormal
    · obtain rfl : pr₁ = pr := by simpa [hk] using gives_follow.mp hfirst
      rw [followed_cons_of_eq hk]
      exact ⟨keys', hwalks', htimes'⟩
    · obtain ⟨keys, hwalks, htimes⟩ := walks_of_gives_follow hw ih sc hp hd hl hk hfirst
      rw [followed_cons_of_ne hk]
      refine ⟨keys ++ keys', .cons hwalks hwalks', fun q => ?_⟩
      rw [htimes', htimes, List.count_append, Nat.add_assoc]

theorem walksAll_of_faults_links (hw : scene.WellFormed) (ih : ∀ q < p, scene.KeyWalks plan root q)
    (sc : plan.Scoped scene.patterns i keyed entry seed new) (hp : p ∈ new)
    (hd : scene.Decides p subject links path) {ls : List (DecidedLink (Fin p))} (hls : ls ⊆ links)
    {pr : Progress root} {q : PatternId}
    (hf : (ls.foldlM (scene.follow plan h i) pr).Faults (.keyedTwice q)) :
    ∃ keys, plan.WalksAll scene.patterns i p (followed ls) keys ∧
      2 ≤ pr.times plan pr.pending q + keys.count q := by
  induction ls generalizing pr with
  | nil => exact (Attempt.faults_foldlM_nil hf).elim
  | cons l ls ihl =>
    obtain ⟨hl, hls⟩ := List.cons_subset.mp hls
    rcases Attempt.faults_foldlM_cons.mp hf with hf | ⟨pr₁, hfirst, hf⟩
    · obtain ⟨hk, hf⟩ := faults_follow.mp hf
      have hk : l.kind ≠ .abnormal := by simp [hk]
      obtain ⟨_, _, _, _, sc', hl', -⟩ := sc.exists_next hp (hd.leads hw hl hk)
      obtain ⟨keys, hwalks, htimes⟩ :=
        (ih _ l.target.isLt sc' hl' (takes_of_shaped (hd.shaped hw hl))).2 q hf
      have hrest : ∃ keys', plan.WalksAll scene.patterns i p (followed ls) keys' := by
        refine Plan.exists_walksAll fun slot t hmem => ?_
        obtain ⟨l', hl', heq⟩ := List.mem_map.mp hmem
        obtain ⟨hl', hk'⟩ := List.mem_filter.mp hl'
        cases heq
        have hlead := hd.leads hw (hls hl') (by simpa using hk')
        obtain ⟨_, _, _, _, sc', hl', -⟩ := sc.exists_next hp hlead
        exact sc'.exists_walks hw.schema hw.patterns hl'
      obtain ⟨keys', hwalks'⟩ := hrest
      rw [followed_cons_of_ne hk]
      refine ⟨keys ++ keys', .cons hwalks hwalks', ?_⟩
      rw [List.count_append]
      omega
    · obtain ⟨keys', hwalks', htimes'⟩ := ihl hls hf
      by_cases hk : l.kind = .abnormal
      · obtain rfl : pr₁ = pr := by simpa [hk] using gives_follow.mp hfirst
        rw [followed_cons_of_eq hk]
        exact ⟨keys', hwalks', htimes'⟩
      · obtain ⟨keys, hwalks, htimes⟩ := walks_of_gives_follow hw ih sc hp hd hl hk hfirst
        rw [followed_cons_of_ne hk]
        refine ⟨keys ++ keys', .cons hwalks hwalks', ?_⟩
        rw [htimes] at htimes'
        rw [List.count_append]
        omega

end Links

theorem keyWalks (hw : scene.WellFormed) (p : PatternId) : scene.KeyWalks plan root p := by
  induction p using Nat.strongRecOn with
  | ind p ih =>
    intro h i keyed new entry link seed subject pr sc hl htakes
    have hstart {d : Decided (Fin p)} (hp : pr.couplings.get? p = none) (q : PatternId) :
        ((pr.coupled p subject).recordPath p d.path).times plan
          ((pr.coupled p subject).recordPath p d.path).pending q =
        pr.times plan pr.pending q + [p].count q := by
      rw [Progress.pending_recordPath, Progress.pending_coupled, ← Progress.times_coupled hp]
      exact Progress.times_congr (Progress.get?_recordPath ..)
    have hcount (keys : List PatternId) (q : PatternId) :
        (p :: keys).count q = [p].count q + keys.count q := by
      rw [← List.count_append]
      rfl
    refine ⟨fun pr' hg => ?_, fun q hf => ?_⟩
    · rcases (gives_key hw).mp hg with ⟨hk, rfl⟩ | ⟨hk, hp, d, pr₁, hd, -, hfold, rfl⟩
      · exact ⟨[], .residual hk, fun q => rfl⟩
      · obtain ⟨keys, hwalks, htimes⟩ := walksAll_of_gives_links hw ih sc (sc.mem_of_isKeyer hl hk)
          hd (fun _ => id) hfold
        refine ⟨p :: keys, .keyed hk (hd.follows hw) hwalks, fun q => ?_⟩
        have hclose : (pr₁.close h i d).times plan (pr₁.close h i d).pending q =
            pr₁.times plan pr₁.pending q := by
          rw [Progress.pending_close]
          exact Progress.times_congr (by rw [Progress.couplings_close])
        rw [hclose, htimes, hstart hp, hcount keys q, Nat.add_assoc]
    · obtain ⟨hk, ⟨hp, heq⟩ | ⟨hp, hf | ⟨d, hd, -, hf⟩⟩⟩ := (faults_key hw).mp hf
      · cases heq
        obtain ⟨keys, hwalks⟩ := sc.exists_walks hw.schema hw.patterns hl
        refine ⟨keys, hwalks, ?_⟩
        cases hwalks with
        | residual hk' =>
          rw [hk] at hk'
          cases hk'
        | keyed =>
          rw [Progress.times, hp, Bool.toNat_true, List.count_cons_self]
          omega
      · exact (not_faults_decide hw htakes hf).elim
      · obtain ⟨keys, hwalks, htimes⟩ := walksAll_of_faults_links hw ih sc (sc.mem_of_isKeyer hl hk)
          hd (fun _ => id) hf
        refine ⟨p :: keys, .keyed hk (hd.follows hw) hwalks, ?_⟩
        rw [hstart hp] at htimes
        rwa [hcount keys q, ← Nat.add_assoc]

/-- A run that is coupled counts as before. -/
theorem times_keyRun (hw : scene.WellFormed) {pr pr' : Progress root} {run : Pending root}
    {rest : List (Pending root)} {q : PatternId} (hg : (scene.keyRun plan pr run).Gives pr') :
    pr'.times plan rest q = pr.times plan (run :: rest) q := by
  rw [Progress.times_cons]
  rcases (gives_keyRun hw).mp hg with ⟨hk, rfl⟩ | ⟨hk, hp, d, -, -, rfl⟩
  · rw [if_neg (by simp [hk])]
    rfl
  · rw [if_pos hk, ← Progress.times_coupled hp]
    exact Progress.times_congr (by rw [Progress.couplings_closeRun])

theorem two_le_times_of_faults_runs (hw : scene.WellFormed) {pr : Progress root}
    {runs : List (Pending root)} {q : PatternId}
    (htakes : ∀ run ∈ runs, scene.Takes run.target.val run.key)
    (hf : (runs.foldlM (scene.keyRun plan) pr).Faults (.keyedTwice q)) :
    2 ≤ pr.times plan runs q := by
  induction runs generalizing pr with
  | nil => exact (Attempt.faults_foldlM_nil hf).elim
  | cons run runs ih =>
    rcases Attempt.faults_foldlM_cons.mp hf with hf | ⟨pr₁, hrun, hf⟩
    · obtain ⟨hk, ⟨hp, heq⟩ | ⟨-, hf⟩⟩ := faults_keyRun.mp hf
      · cases heq
        rw [Progress.times_cons, if_pos hk, Progress.times, hp]
        simp
      · exact (not_faults_decide hw (htakes run (by simp)) hf).elim
    · rw [← times_keyRun hw hrun]
      exact ih (fun run hrun => htakes run (by simp [hrun])) hf

/-- A pattern that an attempt keys twice comes twice in a walk of the plan. -/
theorem PassFaults.exists_walks (hw : scene.WellFormed) {keyed : List PatternId} {x : NodeId}
    {q : PatternId} (hstar : scene.patterns.isStar root = false)
    (hf : scene.PassFaults (.amid scene.patterns keyed root) root x (.keyedTwice q)) :
    ∃ keys, (Plan.amid scene.patterns keyed root).Walks scene.patterns 0 .root root keys ∧
      2 ≤ keys.count q := by
  obtain ⟨new, sc⟩ := (Plan.entered_amid scene.patterns keyed root).scoped
  have htakes : scene.Takes root (.node x) := hstar
  have hstart : (Progress.start : Progress root).times (.amid scene.patterns keyed root)
      Progress.start.pending q = 0 := rfl
  rcases hf with hf | ⟨pr, hkey, hf⟩
  · obtain ⟨keys, hwalks, htimes⟩ := (keyWalks hw root sc .seed htakes).2 q hf
    rw [hstart, Nat.zero_add] at htimes
    exact ⟨keys, hwalks, htimes⟩
  · obtain ⟨keys, hwalks, htimes⟩ := (keyWalks hw root sc .seed htakes).1 pr hkey
    obtain ⟨hc, -⟩ := keyCovers hw (handedOn_true _) root sc trivial .seed (fun q => id) htakes
      .start hkey
    have htwo := two_le_times_of_faults_runs hw (fun run hrun => (hc.runs run hrun).2.1) hf
    rw [htimes q, hstart, Nat.zero_add] at htwo
    exact ⟨keys, hwalks, htwo⟩

theorem PassFaults.contested (hw : scene.WellFormed) {keyed : List PatternId} {x : NodeId}
    {q : PatternId} (hstar : scene.patterns.isStar root = false)
    (hf : scene.PassFaults (.amid scene.patterns keyed root) root x (.keyedTwice q)) :
    (Plan.amid scene.patterns keyed root).Contested scene.patterns q := by
  obtain ⟨keys, hwalks, hcount⟩ := hf.exists_walks hw hstar
  obtain ⟨new, sc⟩ := (Plan.entered_amid scene.patterns keyed root).scoped
  exact hwalks.contested sc .seed hcount

end Scene

/-! ## Rules -/

theorem RulePlan.search_make (ps : PatternSet s) (root : PatternId) (master : List PatternId) :
    (RulePlan.make ps root master).search = Plan.make ps root master := by
  rw [RulePlan.make]
  rfl

theorem RulePlan.root_make (ps : PatternSet s) (root : PatternId) (master : List PatternId) :
    (RulePlan.make ps root master).root = root := by
  rw [RulePlan.make]
  rfl

namespace Rule

variable {name : String} {patterns : PatternSet s} {search : PatternId} {replace : Option PatternId}
  {mode : Mode} {r : Rule s}

/-- A rule has the patterns that it was made of, wrapped, and a plan for the root. -/
theorem exists_wrap_of_make (hr : Rule.make name patterns search replace mode = .ok r) :
    ∃ root, (Draft.wrap search replace mode).run patterns = .ok root r.patterns ∧
      r.plan = RulePlan.make r.patterns root [] := by
  unfold Rule.make at hr
  split at hr
  next => cases hr
  next root ps hwrap =>
    cases hr
    exact ⟨root, hwrap, rfl⟩

/-- A rule has well-formed patterns, and a plan for a root that is no star. -/
theorem exists_root_of_make (hps : patterns.WellFormed)
    (hr : Rule.make name patterns search replace mode = .ok r) :
    r.patterns.WellFormed ∧
      ∃ root, r.patterns.isStar root = false ∧ r.plan = RulePlan.make r.patterns root [] := by
  obtain ⟨root, hwrap, hplan⟩ := exists_wrap_of_make hr
  obtain ⟨hps', hstar⟩ := hps.wrap hwrap
  exact ⟨hps', root, hstar, hplan⟩

/-- A search ends with the fault of a pattern keyed twice only if that pattern is contested in the
plan of the search or in that of a region of it.  Of such a plan, the contested patterns are those
that one of its walks keys twice. -/
theorem contested_of_find (hs : s.WellFormed) (hps : patterns.WellFormed)
    (hr : Rule.make name patterns search replace mode = .ok r) :
    (∀ (f : Forest s) (x : NodeId) (q : PatternId), f.WellShaped →
      r.find f x = .error (.keyedTwice q) →
        ∃ inner, r.plan.search.Encloses inner ∧ inner.Contested r.patterns q) ∧
    ∀ inner, r.plan.search.Encloses inner → ∀ q, inner.Contested r.patterns q ↔
      ∃ keys, inner.Walks r.patterns 0 .root inner.root keys ∧ 2 ≤ keys.count q := by
  obtain ⟨hps', root, hstar, hplan⟩ := exists_root_of_make hps hr
  have hsearch : r.plan.search = .amid r.patterns [] root := by
    rw [hplan, RulePlan.search_make]
    rfl
  refine ⟨fun f x q hf hfind => ?_, fun inner hencl q => ?_⟩
  · have hw : Scene.WellFormed ⟨f, r.patterns, f.size⟩ := ⟨hs, hf, hps'⟩
    rw [find, hsearch, Scene.search, Scene.searchFor] at hfind
    obtain ⟨root', keyed, x', hencl, -, hstar', hpass⟩ := Scene.exists_passFaults hw
      (handedOn_true _) trivial hstar (fun q hq => (List.not_mem_nil hq).elim)
      (Walk.faults_of_solve_eq_error hfind)
    rw [hsearch]
    exact ⟨_, hencl, hpass.contested hw hstar'⟩
  · rw [hsearch] at hencl
    obtain ⟨keyed, root', rfl⟩ := hencl.exists_amid
    exact Plan.contested_iff hs hps'

/-- A conjunction of two disjunctions that share their only disjunct. -/
def sharedDisjunct : PatternSet Schema.base :=
  (((PatternSet.empty.push ⟨0, .standard none []⟩).push ⟨0, .matchAny [0]⟩).push
    ⟨0, .matchAny [0]⟩).push ⟨0, .matchAll [1, 2]⟩

theorem wellFormed_sharedDisjunct : sharedDisjunct.WellFormed :=
  (((PatternSet.wellFormed_empty.insert
    (rfl : PatternSet.insert _ 0 (.standard none []) = .ok _)).insert
    (rfl : PatternSet.insert _ 0 (.matchAny [0]) = .ok _)).insert
    (rfl : PatternSet.insert _ 0 (.matchAny [0]) = .ok _)).insert
    (rfl : PatternSet.insert _ 0 (.matchAll [1, 2]) = .ok _)

/-- The rule that looks for that conjunction at the root. -/
def bothDisjunctions : Rule Schema.base where
  name := "both"
  patterns := sharedDisjunct.push ⟨0, .overlay 3 3⟩
  search := 3
  replace := none
  mode := .compare
  plan := RulePlan.make (sharedDisjunct.push ⟨0, .overlay 3 3⟩) 4 []

theorem find_bothDisjunctions :
    bothDisjunctions.find (Forest.empty.push ⟨0, none, []⟩) 0 = .error (.keyedTwice 0) := by
  decide +kernel

theorem make_bothDisjunctions :
    Rule.make "both" sharedDisjunct 3 none .compare = .ok bothDisjunctions := rfl

theorem contested_bothDisjunctions :
    bothDisjunctions.find (Forest.empty.push ⟨0, none, []⟩) 0 = .error (.keyedTwice 0) ∧
      ∃ inner, bothDisjunctions.plan.search.Encloses inner ∧
        inner.Contested bothDisjunctions.patterns 0 := by
  have hleaf : (Forest.empty.push ⟨0, none, []⟩ : Forest Schema.base).WellShaped :=
    Forest.wellShaped_empty.push (by rfl)
  refine ⟨find_bothDisjunctions, ?_⟩
  exact (contested_of_find Schema.wellFormed_base wellFormed_sharedDisjunct make_bothDisjunctions).1
    _ 0 0 hleaf find_bothDisjunctions

end Rule

end Espalier
