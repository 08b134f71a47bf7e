import Espalier.Proofs.Exhaustion
import Espalier.Proofs.TreeShaped

/-!
# Runs stop at normal forms

A run ends because its search finds nothing more, unless a lenient one has come to its cap.  Whoever
asks again, by `find` or by another run, searches the same forest, but with a later watermark: what
the run has built counts as old by then.  Only green grass looks at the watermark.  Where a rule
cannot come to green grass, what a run has left is a normal form of the rule.
-/

namespace Espalier

variable {s : Schema}

/-- Whether the agent asks for nodes from before the current run. -/
def Agent.isGreenGrass {α : Type} : Agent α → Bool
  | .greenGrass _ => true
  | _ => false

/-- What a pattern has a link to is among what it refers to. -/
theorem Agent.target_mem_children {α : Type} {isStar : α → Bool} {agent : Agent α} {l : Link α}
    (h : l ∈ (agent.query isStar).links) : l.target ∈ agent.children := by
  cases agent with
  | standard value members =>
    have hmembers (slot : Nat) (ms : List (Member α)) (hl : l ∈ membersLinks isStar slot ms) :
        l.target ∈ ms.flatMap Member.children := by
      induction ms generalizing slot with
      | nil => cases hl
      | cons m ms ih =>
        rw [List.flatMap_cons]
        rcases List.mem_append.mp hl with hl | hl
        · obtain ⟨⟨q, offset⟩, hq, rfl⟩ := List.mem_map.mp hl
          exact List.mem_append_left _ (List.fst_mem_of_mem_zipIdx hq)
        · exact List.mem_append_right _ (ih _ hl)
    exact hmembers 0 members h
  | star restriction =>
    obtain ⟨r, hr, rfl⟩ := List.mem_map.mp h
    exact hr
  | stuff terminus restriction =>
    rcases List.mem_cons.mp h with rfl | h
    · exact List.mem_cons_self
    · obtain ⟨r, hr, rfl⟩ := List.mem_map.mp h
      exact List.mem_cons_of_mem _ hr
  | matchAll qs =>
    obtain ⟨⟨q, slot⟩, hq, rfl⟩ := List.mem_map.mp h
    exact List.fst_mem_of_mem_zipIdx hq
  | matchAny qs =>
    obtain ⟨⟨q, slot⟩, hq, rfl⟩ := List.mem_map.mp h
    exact List.fst_mem_of_mem_zipIdx hq
  | _ =>
    obtain rfl := List.mem_singleton.mp h
    exact List.mem_cons_self

theorem PatternSet.exists_mem_children_of_refers {ps : PatternSet s} {p q : PatternId} {slot : Nat}
    (h : ps.Refers p slot q) : ∃ c ∈ (ps.pattern p).agent.children, c.val = q := by
  obtain ⟨l, hl, -, rfl⟩ := h
  exact ⟨l.target, Agent.target_mem_children hl, rfl⟩

/-- Every pattern has a kind. -/
theorem PatternSet.WellFormed.size_pos {ps : PatternSet s} (hps : ps.WellFormed) {p : PatternId}
    (hp : p < ps.size) : 0 < s.size :=
  Nat.zero_lt_of_lt (hps p _ (Array.getElem?_eq_getElem hp)).1

/-- An attempt mirrors itself, and what is known of its results is known on both sides. -/
theorem Attempt.mirrors_self {α : Type} {x : Attempt α} {Q : α → Prop} (h : ∀ a, x.Gives a → Q a) :
    Mirrors (fun a b => a = b ∧ Q a) x x := by
  apply List.forall₂_same.mpr
  intro r hr
  cases r with
  | ok a => exact .ok ⟨rfl, h a hr⟩
  | error halt => exact .error halt

/-! ## Searches that meet no green grass -/

/-- A set of patterns without green grass that no link leads out of. -/
structure PatternSet.Grassless (ps : PatternSet s) (G : PatternId → Prop) : Prop where
  closed : ∀ {p slot q}, G p → ps.Refers p slot q → G q
  isGreenGrass : ∀ p, G p → (ps.pattern p).agent.isGreenGrass = false

/-- What is set aside is for patterns of `G`. -/
structure Progress.StaysIn {n : Nat} (G : PatternId → Prop) (pr : Progress n) : Prop where
  pending : ∀ run ∈ pr.pending, G run.target.val
  regions : ∀ region ∈ pr.regions, ∀ l ∈ region.links, G l.target.val

namespace Progress.StaysIn

variable {n : Nat} {G : PatternId → Prop} {pr : Progress n} {p : PatternId}

theorem start : (Progress.start : Progress n).StaysIn G :=
  ⟨List.forall_mem_nil _, List.forall_mem_nil _⟩

theorem addPending (h : pr.StaysIn G) {run : Pending n} (hrun : G run.target.val) :
    (pr.addPending run).StaysIn G where
  pending := List.forall_mem_append.mpr ⟨h.pending, List.forall_mem_singleton.mpr hrun⟩
  regions := h.regions

theorem addRegion (h : pr.StaysIn G) {region : Region n}
    (hregion : ∀ l ∈ region.links, G l.target.val) :
    (pr.addRegion region).StaysIn G where
  pending := h.pending
  regions := List.forall_mem_append.mpr ⟨h.regions, List.forall_mem_singleton.mpr hregion⟩

theorem recordPath (h : pr.StaysIn G) (p : PatternId) (path : Option (List Site)) :
    (pr.recordPath p path).StaysIn G := by
  cases path with
  | none => exact h
  | some sites => exact ⟨h.pending, h.regions⟩

theorem castLE {links : List (DecidedLink (Fin p))} (h : p ≤ n)
    (hlinks : ∀ l ∈ links, G l.target.val) :
    ∀ l ∈ links.map (·.map (·.castLE h)), G l.target.val := by
  intro l hl
  obtain ⟨l, hmem, rfl⟩ := List.mem_map.mp hl
  exact hlinks l hmem

theorem close (hpr : pr.StaysIn G) (h : p ≤ n) (scope : Nat) {d : Decided (Fin p)}
    (hd : ∀ l ∈ d.links, G l.target.val) : (pr.close h scope d).StaysIn G := by
  rcases pr.close_eq h scope d with ⟨heq, -⟩ | ⟨evaluator, -, heq⟩
  · rw [heq]
    exact hpr
  · rw [heq]
    refine hpr.addRegion (castLE h ?_)
    exact fun l hl => hd l (List.mem_of_mem_filter hl)

theorem closeRun (hpr : pr.StaysIn G) (run : Pending n) {d : Decided (Fin run.target.val)}
    (hd : ∀ l ∈ d.links, G l.target.val) : (pr.closeRun run d).StaysIn G := by
  rw [Progress.closeRun]
  cases d.evaluator with
  | none => exact hpr
  | some evaluator => exact hpr.addRegion (castLE _ hd)

end Progress.StaysIn

namespace Scene

variable {f : Forest s} {ps : PatternSet s} {w : Nat} {G : PatternId → Prop} {root p : PatternId}
  {plan : Plan}

/-- Only green grass looks at the watermark. -/
theorem decide_watermark (h : (ps.pattern p).agent.isGreenGrass = false) (w' : Nat) (key : Key) :
    Scene.decide ⟨f, ps, w'⟩ p key = Scene.decide ⟨f, ps, w⟩ p key := by
  have hnode (x : NodeId) : Scene.decideNode ⟨f, ps, w'⟩ p x = Scene.decideNode ⟨f, ps, w⟩ p x := by
    unfold decideNode
    dsimp only
    generalize (ps.pattern p).agent = agent at h
    cases agent with
    | greenGrass through => cases h
    | _ => rfl
  have hlinks : Scene.decideLinks ⟨f, ps, w'⟩ p key = Scene.decideLinks ⟨f, ps, w⟩ p key := by
    unfold decideLinks
    simp only [hnode]
  rw [decide_eq, decide_eq, hlinks]

/-- The progress is the same on both sides, and stays in `G`. -/
abbrev EqIn (G : PatternId → Prop) (pr pr' : Progress root) : Prop := pr = pr' ∧ pr.StaysIn G

theorem mirrors_decide (hw : Scene.WellFormed ⟨f, ps, w⟩) (hG : ps.Grassless G) (hp : G p)
    (w' : Nat) (key : Key) :
    Attempt.Mirrors (fun d d' => d = d' ∧ ∀ l ∈ d.links, G l.target.val)
      (Scene.decide ⟨f, ps, w⟩ p key) (Scene.decide ⟨f, ps, w'⟩ p key) := by
  rw [decide_watermark (w := w) (hG.isGreenGrass p hp) w' key]
  apply Attempt.mirrors_self
  intro d hd l hl
  obtain ⟨hd, -⟩ := (gives_decide hw).mp hd
  exact hG.closed hp ⟨l.declared, hd.declared_mem hw hl, rfl, rfl⟩

theorem eqIn_couple {pr : Progress root} (hpr : pr.StaysIn G) (p : PatternId) (key : Key) :
    Attempt.Mirrors (EqIn G) (pr.couple p key) (pr.couple p key) := by
  apply Attempt.mirrors_self
  intro pr' hg
  obtain ⟨-, rfl⟩ := gives_couple.mp hg
  exact ⟨hpr.pending, hpr.regions⟩

theorem eqIn_key (hw : Scene.WellFormed ⟨f, ps, w⟩) (hG : ps.Grassless G) (hp : G p) (w' : Nat)
    {h : p ≤ root} {scope : Nat} {link : LinkId} {subject : Key} {pr : Progress root}
    (hpr : pr.StaysIn G) :
    Attempt.Mirrors (EqIn G) (key ⟨f, ps, w⟩ plan root p h scope link subject pr)
      (key ⟨f, ps, w'⟩ plan root p h scope link subject pr) := by
  induction p using Nat.strongRecOn generalizing scope link subject pr with
  | ind p ih =>
    cases hk : (plan.scope scope).isKeyer link with
    | false =>
      rw [key_of_not_isKeyer hk, key_of_not_isKeyer hk]
      exact Attempt.mirrors_pure ⟨rfl, hpr.pending, hpr.regions⟩
    | true =>
      rw [key_of_isKeyer hk, key_of_isKeyer hk]
      refine Attempt.mirrors_bind (eqIn_couple hpr p subject) ?_
      rintro pr₁ _ ⟨rfl, hpr₁⟩
      refine Attempt.mirrors_bind (mirrors_decide hw hG hp w' subject) ?_
      rintro d _ ⟨rfl, hd⟩
      have hlinks : List.Forall₂ (fun l l' => l = l' ∧ G l.target.val) d.links d.links :=
        List.forall₂_same.mpr fun l hl => ⟨rfl, hd l hl⟩
      refine Attempt.mirrors_bind
        (Attempt.mirrors_foldlM (R := EqIn G) hlinks ⟨rfl, hpr₁.recordPath p d.path⟩ ?_) ?_
      · rintro pr₂ _ l _ ⟨rfl, hpr₂⟩ ⟨rfl, hl⟩
        rw [follow, follow]
        cases l.kind with
        | normal => exact ih l.target.val l.target.isLt hl hpr₂
        | multiplicity => exact Attempt.mirrors_pure ⟨rfl, hpr₂.addPending hl⟩
        | abnormal => exact Attempt.mirrors_pure ⟨rfl, hpr₂⟩
      · rintro pr₂ _ ⟨rfl, hpr₂⟩
        exact Attempt.mirrors_pure ⟨rfl, hpr₂.close h scope hd⟩

theorem eqIn_keyRun (hw : Scene.WellFormed ⟨f, ps, w⟩) (hG : ps.Grassless G) (w' : Nat)
    {pr : Progress root} (hpr : pr.StaysIn G) {run : Pending root} (hrun : G run.target.val) :
    Attempt.Mirrors (EqIn G) (keyRun ⟨f, ps, w⟩ plan pr run) (keyRun ⟨f, ps, w'⟩ plan pr run) := by
  cases hk : (plan.scope run.scope).isKeyer run.link with
  | false =>
    rw [keyRun, keyRun, hk]
    exact Attempt.mirrors_pure ⟨rfl, hpr.pending, hpr.regions⟩
  | true =>
    rw [keyRun_of_isKeyer hk, keyRun_of_isKeyer hk]
    refine Attempt.mirrors_bind (eqIn_couple hpr _ _) ?_
    rintro pr₁ _ ⟨rfl, hpr₁⟩
    refine Attempt.mirrors_bind (mirrors_decide hw hG hrun w' run.key) ?_
    rintro d _ ⟨rfl, hd⟩
    exact Attempt.mirrors_pure ⟨rfl, hpr₁.closeRun run hd⟩

/-- Whether a region holds depends on the searches for the targets of its links. -/
theorem evaluate_congr {view : View}
    {inner inner' : Fin root → Plan → Key → View → Except Fault (Option Couplings)}
    {region : Region root} (h : ∀ l ∈ region.links, ∀ nested key view,
      inner l.target nested key view = inner' l.target nested key view) :
    evaluate plan view inner region = evaluate plan view inner' region := by
  have hall (links : List (DecidedLink (Fin root)))
      (hlinks : ∀ l ∈ links, ∀ nested key view, inner l.target nested key view =
        inner' l.target nested key view) :
      allMatch plan view inner region.scope region.pattern links =
        allMatch plan view inner' region.scope region.pattern links := by
    induction links with
    | nil => rfl
    | cons l links ih =>
      rw [List.forall_mem_cons] at hlinks
      rw [allMatch, allMatch, ih hlinks.2]
      simp only [hlinks.1]
  rw [evaluate, evaluate, hall region.links h]

/-- A search for a pattern of `G` comes to the same with any watermark. -/
theorem searchFor_watermark (hw : Scene.WellFormed ⟨f, ps, w⟩) (hG : ps.Grassless G)
    (hroot : G root) (w' : Nat) (plan : Plan) (subject : Key) (view : View) :
    searchFor ⟨f, ps, w⟩ root plan subject view = searchFor ⟨f, ps, w'⟩ root plan subject view := by
  induction root using Nat.strongRecOn generalizing plan subject view with
  | ind root ih =>
    have hattempt : Attempt.Mirrors Eq
        (attempt ⟨f, ps, w⟩ plan root subject view fun q nested key view =>
          searchFor ⟨f, ps, w⟩ q.val nested key view)
        (attempt ⟨f, ps, w'⟩ plan root subject view fun q nested key view =>
          searchFor ⟨f, ps, w'⟩ q.val nested key view) := by
      refine Attempt.mirrors_bind (eqIn_key hw hG hroot w' .start) ?_
      rintro pr _ ⟨rfl, hpr⟩
      have hpending : List.Forall₂ (fun run run' => run = run' ∧ G run.target.val)
          pr.pending pr.pending :=
        List.forall₂_same.mpr fun run hrun => ⟨rfl, hpr.pending run hrun⟩
      refine Attempt.mirrors_bind (R := EqIn G) ?_ ?_
      · refine Attempt.mirrors_bind (Attempt.mirrors_foldlM (R := EqIn G) hpending ⟨rfl, hpr⟩ ?_) ?_
        · rintro pr₁ _ run _ ⟨rfl, hpr₁⟩ ⟨rfl, hrun⟩
          exact eqIn_keyRun hw hG w' hpr₁ hrun
        rintro pr₁ _ ⟨rfl, hpr₁⟩
        refine Attempt.mirrors_bind (Attempt.mirrors_refl _) fun _ _ _ => ?_
        have hregions : List.Forall₂ (fun region region' => region = region' ∧ region ∈ pr₁.regions)
            pr₁.regions pr₁.regions :=
          List.forall₂_same.mpr fun region hregion => ⟨rfl, hregion⟩
        refine Attempt.mirrors_bind (Attempt.mirrors_forM hregions ?_) fun _ _ _ =>
          Attempt.mirrors_pure ⟨rfl, hpr₁⟩
        rintro region _ ⟨rfl, hregion⟩
        have hsame : evaluate plan (pr₁.couplings :: view)
              (fun q nested key view => searchFor ⟨f, ps, w⟩ q.val nested key view) region =
            evaluate plan (pr₁.couplings :: view)
              (fun q nested key view => searchFor ⟨f, ps, w'⟩ q.val nested key view) region :=
          evaluate_congr fun l hl =>
            ih l.target.val l.target.isLt (hpr₁.regions region hregion l hl)
        rw [hsame]
        exact Attempt.mirrors_refl _
      · rintro pr₁ _ ⟨rfl, -⟩
        exact Attempt.mirrors_pure rfl
    rw [searchFor, searchFor]
    have hsolve := Walk.solve_alike hattempt
    generalize Walk.solve _ = found at hsolve ⊢
    generalize Walk.solve _ = found' at hsolve ⊢
    cases hsolve with
    | error e => rfl
    | none => rfl
    | some h => rw [h]

end Scene

/-! ## Rounds -/

namespace Grow

variable {find : Forest s → NodeId → Except Fault (Option Couplings)}
  {rebuild : Couplings → Grow s RunError NodeId} {rule : String} {strict : Bool} {left hits : Nat}
  {x : NodeId} {applied : Applied} {f f' : Forest s}

theorem hits_le_of_rounds (h : rounds find rebuild rule strict left hits x f = .ok applied f') :
    hits ≤ applied.hits := by
  induction left generalizing hits x f with
  | zero =>
    rcases rounds_cases h with ⟨rfl, -⟩ | ⟨_, _, _, _, hleft, -⟩
    · exact Nat.le_refl _
    · cases hleft
  | succ left ih =>
    rcases rounds_cases h with ⟨rfl, -⟩ | ⟨_, _, _, _, hleft, -, -, hrest⟩
    · exact Nat.le_refl _
    · cases hleft
      exact Nat.le_of_succ_le (ih hrest)

/-- Rounds that have rebuilt nothing end where they started. -/
theorem rounds_of_hits_eq (h : rounds find rebuild rule strict left hits x f = .ok applied f')
    (heq : applied.hits = hits) :
    applied = ⟨x, hits⟩ ∧ f' = f ∧ (find f x = .ok none ∨ left = 0) := by
  rcases rounds_cases h with ⟨rfl, rfl, hend⟩ | ⟨c, y, f₁, left', -, -, -, hrest⟩
  · exact ⟨rfl, rfl, hend.imp_right And.left⟩
  · have := hits_le_of_rounds hrest
    omega

/-- Rounds end with nothing left to find, unless they are lenient and have come to their number. -/
theorem find_of_rounds (h : rounds find rebuild rule strict left hits x f = .ok applied f')
    (hends : applied.hits < hits + left ∨ strict = true) : find f' applied.root = .ok none := by
  induction left generalizing hits x f with
  | zero =>
    rcases rounds_cases h with ⟨rfl, rfl, hend | ⟨-, hlenient⟩⟩ | ⟨_, _, _, _, hleft, -⟩
    · exact hend
    · rcases hends with hlt | hstrict
      · exact absurd hlt (Nat.lt_irrefl _)
      · rw [hlenient] at hstrict
        cases hstrict
    · cases hleft
  | succ left ih =>
    rcases rounds_cases h with ⟨rfl, rfl, hend | ⟨hleft, -⟩⟩ | ⟨_, _, _, _, hleft, -, -, hrest⟩
    · exact hend
    · cases hleft
    · cases hleft
      refine ih hrest (hends.imp_left fun hlt => ?_)
      omega

end Grow

/-! ## Rules -/

namespace PatternSet

variable {ps ps' : PatternSet s} {search root : PatternId}
  {replace : Option PatternId} {mode : Mode}

/-- What is laid around the search pattern and its replacement brings no green grass with it.  The
replacement itself is never searched for. -/
theorem exists_grassless_of_wrap (hps : ps.WellFormed)
    (h : (Draft.wrap search replace mode).run ps = .ok root ps')
    (hgrass : ∀ q ∈ ps.reachable search, (ps.pattern q).agent.isGreenGrass = false) :
    ∃ G, ps'.Grassless G ∧ G root := by
  obtain ⟨-, hsearch, -, -⟩ := hps.wrap_eq h
  obtain ⟨hget, hoverlay, hroot⟩ := hps.get_wrap h
  obtain ⟨through, _, hthrough, -, hagent⟩ := exists_agent_overlay (congrArg Pattern.agent hoverlay)
  have hold {q} (hq : q ∈ ps.reachable search) : ps'.pattern q = ps.pattern q :=
    pattern_eq_of_get_eq (hget q (Nat.lt_of_le_of_lt (le_of_mem_reachable hq) hsearch))
  have hinner : ps'.Grassless fun q => q = ps.size ∨ q ∈ ps.reachable search := by
    constructor
    · rintro p slot q (rfl | hp) hr
      · obtain ⟨l, hl, -, rfl⟩ := hr
        rw [query, hagent] at hl
        obtain rfl := List.mem_singleton.mp hl
        rw [hthrough]
        exact .inr self_mem_reachable
      · obtain ⟨c, hc, rfl⟩ := exists_mem_children_of_refers hr
        rw [hold hp] at hc
        exact .inr (mem_reachable_of_mem_children hp hc)
    · rintro p (rfl | hp)
      · rw [hagent]
        rfl
      · rw [hold hp]
        exact hgrass p hp
  rcases hroot with rfl | ⟨rfl, hstuff⟩
  · exact ⟨_, hinner, .inl rfl⟩
  · obtain ⟨terminus, hterminus, hagent'⟩ := exists_agent_stuff hstuff
    refine ⟨fun q => q = ps.size + 1 ∨ q = ps.size ∨ q ∈ ps.reachable search, ⟨?_, ?_⟩, .inl rfl⟩
    · rintro p slot q (rfl | hp) hr
      · obtain ⟨l, hl, -, rfl⟩ := hr
        rw [query, hagent'] at hl
        obtain rfl := List.mem_singleton.mp hl
        exact .inr (.inl hterminus)
      · exact .inr (hinner.closed hp hr)
    · rintro p (rfl | hp)
      · rw [hagent']
        rfl
      · exact hinner.isGreenGrass p hp

end PatternSet

namespace Rule

variable {name : String} {patterns : PatternSet s} {search : PatternId} {replace : Option PatternId}
  {mode : Mode} {r : Rule s} {f : Forest s}

theorem apply_of_find_eq_none {root : NodeId} (h : r.find f root = .ok none) (limits : Limits) :
    r.apply limits root f = .ok ⟨root, 0⟩ f :=
  Grow.rounds_of_none h

/-- A run rebuilds nothing exactly if there is nothing to find, and then it leaves everything as it
is.  Without green grass, a run that has not come to its cap or is strict ends at a normal form:
nothing is to be found there, and whatever its limits another run rebuilds nothing. -/
theorem find_eq_none_of_apply (hs : s.WellFormed) (hps : patterns.WellFormed)
    (hr : Rule.make name patterns search replace mode = .ok r) (hf : f.WellFormed) (root : NodeId)
    (limits : Limits) (hlimits : 1 ≤ limits.maxRepetitions) :
    ((∃ x f', r.apply limits root f = .ok x f' ∧ x.hits = 0) ↔ r.find f root = .ok none) ∧
    (∀ x f', r.apply limits root f = .ok x f' → x.hits = 0 → x.root = root ∧ f' = f) ∧
    ((∀ q ∈ patterns.reachable search, (patterns.pattern q).agent.isGreenGrass = false) →
      ∀ x f', r.apply limits root f = .ok x f' →
        x.hits < limits.maxRepetitions ∨ limits.strict = true →
        r.find f' x.root = .ok none ∧
          ∀ limits', r.apply limits' x.root f' = .ok ⟨x.root, 0⟩ f') := by
  refine ⟨⟨?_, fun hnone => ?_⟩, fun x f' h hzero => ?_, fun hgrass x f' h hends => ?_⟩
  · rintro ⟨x, f', h, hzero⟩
    obtain ⟨-, -, hnone | hleft⟩ := Grow.rounds_of_hits_eq h hzero
    · exact hnone
    · exact absurd hleft (Nat.ne_of_gt hlimits)
  · exact ⟨_, f, apply_of_find_eq_none hnone limits, rfl⟩
  · obtain ⟨rfl, rfl, -⟩ := Grow.rounds_of_hits_eq h hzero
    exact ⟨rfl, rfl⟩
  · obtain ⟨root', hwrap, hplan⟩ := exists_wrap_of_make hr
    obtain ⟨hps', -⟩ := hps.wrap hwrap
    obtain ⟨G, hG, hroot⟩ := PatternSet.exists_grassless_of_wrap hps hwrap hgrass
    have hbare := fits_default hs (hps.size_pos (hps.wrap_eq hwrap).2.1)
    have hf' : f'.WellFormed := ((Workshop.appends_run _ hbare r.plan [] root hf).of_ok h).2.1
    -- The last search of the run has its watermark at the end of the forest that the run started
    -- from.
    have hfound : Scene.search ⟨f', r.patterns, f.size⟩ r.plan.search (.node x.root) [] =
        .ok none := by
      rw [apply_eq] at h
      refine Grow.find_of_rounds h (hends.imp_left fun hlt => ?_)
      rw [Nat.zero_add]
      exact hlt
    have hnone : r.find f' x.root = .ok none := by
      rw [find, Scene.search, ← hfound]
      refine Scene.searchFor_watermark ⟨hs, hf'.wellShaped, hps'⟩ hG ?_ f.size _ _ _
      rw [hplan, RulePlan.search_make]
      exact hroot
    exact ⟨hnone, apply_of_find_eq_none hnone⟩

/-- Two rounds replace both occurrences of the list, and in what they leave there is nothing to
find. -/
theorem find_eq_none_of_apply_sharedLists :
    ∃ f', keepEnd.apply ⟨3, false⟩ 5 sharedLists = .ok ⟨10, 2⟩ f' ∧ keepEnd.find f' 10 = .ok none ∧
      (∀ limits, keepEnd.apply limits 10 f' = .ok ⟨10, 0⟩ f') ∧
      ¬ keepEnd.find sharedLists 5 = .ok none := by
  have hmake : Rule.make "keep end" sameEnds 2 (some 0) .search = .ok keepEnd := rfl
  have hshared : sharedLists.WellFormed :=
    wellFormed_nestedLists.push (Forest.check_eq_ok_iff.mp (rfl : nestedLists.check _ = .ok ())).1
  have hgrass : ∀ q ∈ sameEnds.reachable 2, (sameEnds.pattern q).agent.isGreenGrass = false := by
    decide +kernel
  have hrun : (keepEnd.apply ⟨3, false⟩ 5).run' sharedLists = some ⟨10, 2⟩ := by decide +kernel
  obtain ⟨f', hrun⟩ := Grow.exists_of_run'_eq_some hrun
  obtain ⟨hfind, -, hnormal⟩ := find_eq_none_of_apply
    (Schema.wellFormed_base.define Scene.define_lists)
    wellFormed_sameEnds hmake hshared 5 ⟨3, false⟩ (by decide)
  obtain ⟨hnone, hagain⟩ := hnormal hgrass _ f' hrun (.inl (by decide))
  refine ⟨f', hrun, hnone, hagain, fun hnone => ?_⟩
  obtain ⟨x, g, hx, hzero⟩ := hfind.mpr hnone
  rw [hrun] at hx
  cases hx
  cases hzero

end Rule

end Espalier
