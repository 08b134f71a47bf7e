import Espalier.Proofs.Congruence
import Espalier.Proofs.Passes

/-!
# What an attempt leaves on record

Every pattern that an attempt couples has decided on links: its way down is recorded, the links that
are followed meet their keys, and the abnormal ones are set aside as a region.  Whatever decided
links hand on from a pattern to their targets holds of all that is coupled.
-/

namespace Espalier

variable {s : Schema} {root : PatternId}

namespace Progress

/-- The pattern `q` is coupled to `key`, or set aside to be held against it; the runs of `rest` are
still to come. -/
def Meets (pr : Progress root) (rest : List (Pending root)) (q : PatternId) (key : Key) :
    Prop :=
  pr.couplings.get? q = some key ∨ (q, key) ∈ pr.residuals ∨
    ∃ run ∈ rest, run.target.val = q ∧ run.key = key

/-- The abnormal ones of the links that `q` has decided on make a region, unless there are none that
could fail. -/
def SetsAside (pr : Progress root) (evaluator : Option Evaluator) (q : PatternId)
    (links : List (DecidedLink (Fin q))) : Prop :=
  ∀ e, evaluator = some e → (e = .and ∧ ∀ l ∈ links, l.kind ≠ .abnormal) ∨
    ∃ (scope : Nat) (h : q ≤ root), Region.mk scope q e
      ((links.filter fun l => l.kind = .abnormal).map (·.map (·.castLE h))) ∈ pr.regions

theorem Extends.meets {pr pr' : Progress root} {q : PatternId} {key : Key}
    (h : pr.Extends pr') (hq : pr.Meets pr.pending q key) : pr'.Meets pr'.pending q key := by
  rcases hq with hq | hq | ⟨run, hrun, hq⟩
  · exact .inl (h.get? hq)
  · exact .inr (.inl (h.residuals hq))
  · exact .inr (.inr ⟨run, h.pending hrun, hq⟩)

theorem Extends.setsAside {pr pr' : Progress root} (h : pr.Extends pr')
    {evaluator : Option Evaluator} {q : PatternId} {links : List (DecidedLink (Fin q))}
    (hq : pr.SetsAside evaluator q links) : pr'.SetsAside evaluator q links := by
  intro e he
  rcases hq e he with hnone | ⟨scope, hle, hregion⟩
  · exact .inl hnone
  · exact .inr ⟨scope, hle, h.regions hregion⟩

theorem setsAside_close {p : PatternId} (pr : Progress root) (h : p ≤ root) (scope : Nat)
    (d : Decided (Fin p)) : (pr.close h scope d).SetsAside d.evaluator p d.links := by
  intro e he
  rcases pr.close_eq h scope d with ⟨-, hnone⟩ | ⟨e', he', heq⟩
  · exact .inl (hnone e he)
  · obtain rfl := Option.some.inj (he.symm.trans he')
    refine .inr ⟨scope, h, ?_⟩
    rw [heq]
    exact List.mem_append_right _ List.mem_cons_self

theorem setsAside_closeRun (pr : Progress root) (run : Pending root)
    (d : Decided (Fin run.target.val)) (hd : ∀ l ∈ d.links, l.kind = .abnormal) :
    (pr.closeRun run d).SetsAside d.evaluator run.target.val d.links := by
  intro e he
  refine .inr ⟨run.scope, run.target_le, ?_⟩
  rw [closeRun, he, List.filter_eq_self.mpr (by simpa using hd)]
  exact List.mem_append_right _ List.mem_cons_self

end Progress

namespace Scene

variable {scene : Scene s} {plan : Plan} {p : PatternId} {P : PatternId → Key → Prop}

/-- The pattern `q` has decided on `links` for `key`: its way is on record, and the targets of those
that are followed meet their keys. -/
def Recorded (scene : Scene s) (pr : Progress root) (rest : List (Pending root)) (q : PatternId)
    (key : Key) (links : List (DecidedLink (Fin q))) : Prop :=
  ∃ path, scene.Decides q key links path ∧
    (∀ sites, path = some sites → pr.couplings.path? q = some sites) ∧
    ∀ l ∈ links, l.kind ≠ .abnormal → pr.Meets rest l.target.val l.key

/-- The pattern `q` has decided on links for `key`, and those that are not followed are set
aside. -/
def Settled (scene : Scene s) (pr : Progress root) (rest : List (Pending root)) (q : PatternId)
    (key : Key) : Prop :=
  ∃ links, scene.Recorded pr rest q key links ∧
    pr.SetsAside (scene.patterns.query q).evaluator q links

/-- What holds of a pattern and its key holds of the targets of the links that it decides on. -/
def Inherited (scene : Scene s) (P : PatternId → Key → Prop) : Prop :=
  ∀ {p key links path}, P p key → scene.Decides p key links path →
    ∀ l ∈ links, l.kind ≠ .abnormal → P l.target.val l.key

theorem inherited_true (scene : Scene s) : scene.Inherited fun _ _ => True := by
  intro p key links path _ _ l _ _
  trivial

theorem inherited_lt_watermark (scene : Scene s) :
    scene.Inherited fun _ key => ∀ x ∈ key.nodes, x < scene.watermark := by
  intro p key links path hkey hd l hl _
  exact hd.lt_watermark hkey hl

theorem Recorded.extends {pr pr' : Progress root} {q : PatternId} {key : Key}
    {links : List (DecidedLink (Fin q))} (hq : scene.Recorded pr pr.pending q key links)
    (h : pr.Extends pr') (hkey : pr.couplings.get? q = some key) :
    scene.Recorded pr' pr'.pending q key links := by
  obtain ⟨path, hd, hpath, hl⟩ := hq
  refine ⟨path, hd, fun sites hsites => ?_, fun l hmem hk => h.meets (hl l hmem hk)⟩
  rw [h.path? (by rw [hkey]; rfl)]
  exact hpath sites hsites

theorem Settled.extends {pr pr' : Progress root} {q : PatternId} {key : Key}
    (hq : scene.Settled pr pr.pending q key) (h : pr.Extends pr')
    (hkey : pr.couplings.get? q = some key) : scene.Settled pr' pr'.pending q key := by
  obtain ⟨links, hrecorded, haside⟩ := hq
  exact ⟨links, hrecorded.extends h hkey, h.setsAside haside⟩

/-! ## The first pass -/

/-- What was coupled after `pr` is settled, what was set aside after it as a run is one, and of both
holds what is inherited. -/
structure Records (scene : Scene s) (P : PatternId → Key → Prop) (pr pr' : Progress root) :
    Prop where
  couplings : ∀ q key, pr'.couplings.get? q = some key →
    pr.couplings.get? q = some key ∨ P q key ∧ scene.Settled pr' pr'.pending q key
  runs : ∀ run ∈ pr'.pending, run ∈ pr.pending ∨
    P run.target.val run.key ∧ scene.patterns.isStar run.target.val = true

namespace Records

variable {pr pr' pr'' : Progress root}

theorem refl (pr : Progress root) : scene.Records P pr pr :=
  ⟨fun _ _ => .inl, fun _ => .inl⟩

theorem trans (h : scene.Records P pr pr') (h' : scene.Records P pr' pr'')
    (hext : pr'.Extends pr'') :
    scene.Records P pr pr'' where
  couplings q key hkey := by
    rcases h'.couplings q key hkey with hkey' | hq
    · exact (h.couplings q key hkey').imp_right fun hq => ⟨hq.1, hq.2.extends hext hkey'⟩
    · exact .inr hq
  runs run hrun := by
    rcases h'.runs run hrun with hrun | hstar
    · exact h.runs run hrun
    · exact .inr hstar

theorem addResidual (q : PatternId) (key : Key) : scene.Records P pr (pr.addResidual q key) :=
  ⟨fun _ _ => .inl, fun _ => .inl⟩

theorem addPending {run : Pending root} (hP : P run.target.val run.key)
    (hstar : scene.patterns.isStar run.target.val = true) :
    scene.Records P pr (pr.addPending run) where
  couplings _ _ := .inl
  runs run' hrun' := by
    rcases List.mem_append.mp hrun' with hrun' | hrun'
    · exact .inl hrun'
    · obtain rfl := List.mem_singleton.mp hrun'
      exact .inr ⟨hP, hstar⟩

end Records

/-- Whoever sends the first pass to `p` finds that it meets its key, and all that it has coupled on
record. -/
def KeyRecords (scene : Scene s) (plan : Plan) (P : PatternId → Key → Prop) (root p : PatternId) :
    Prop :=
  ∀ {h : p ≤ root} {scope : Nat} {link : LinkId} {subject : Key} {pr pr' : Progress root},
    P p subject → (scene.key plan root p h scope link subject pr).Gives pr' →
      pr'.Meets pr'.pending p subject ∧ scene.Records P pr pr'

theorem records_follow (hw : scene.WellFormed) (hP : scene.Inherited P)
    (ih : ∀ q, q < p → scene.KeyRecords plan P root q) {h : p ≤ root} {scope : Nat} {subject : Key}
    {links : List (DecidedLink (Fin p))} {path : Option (List Site)} {l : DecidedLink (Fin p)}
    {pr pr' : Progress root} (hp : P p subject) (hd : scene.Decides p subject links path)
    (hl : l ∈ links) (hg : (scene.follow plan h scope pr l).Gives pr') :
    (l.kind ≠ .abnormal → pr'.Meets pr'.pending l.target.val l.key) ∧ scene.Records P pr pr' := by
  rcases gives_follow.mp hg with ⟨hk, hg⟩ | ⟨hk, rfl⟩ | ⟨hk, rfl⟩
  · have hl' := hP hp hd l hl (by simp [hk])
    obtain ⟨hmeets, hrecords⟩ := ih l.target.val l.target.isLt hl' hg
    exact ⟨fun _ => hmeets, hrecords⟩
  · have hl' := hP hp hd l hl (by simp [hk])
    refine ⟨fun _ => .inr (.inr ?_), .addPending hl' ((hd.shaped hw hl).target_isStar hk)⟩
    exact ⟨⟨scope, .child p l.slot, l.target.castLE h, l.key⟩, by simp [Progress.addPending],
      rfl, rfl⟩
  · exact ⟨fun hne => (hne hk).elim, .refl pr'⟩

theorem records_links (hw : scene.WellFormed) (hP : scene.Inherited P)
    (ih : ∀ q, q < p → scene.KeyRecords plan P root q) {h : p ≤ root} {scope : Nat} {subject : Key}
    {links : List (DecidedLink (Fin p))} {path : Option (List Site)} {pr pr' : Progress root}
    (hp : P p subject) (hd : scene.Decides p subject links path)
    (hg : (links.foldlM (scene.follow plan h scope) pr).Gives pr') :
    (∀ l ∈ links, l.kind ≠ .abnormal → pr'.Meets pr'.pending l.target.val l.key) ∧
      scene.Records P pr pr' := by
  refine Attempt.foldlM_invariant (fun done pr₁ =>
    (∀ l ∈ done, l.kind ≠ .abnormal → pr₁.Meets pr₁.pending l.target.val l.key) ∧
      scene.Records P pr pr₁) ⟨by simp, .refl pr⟩ ?_ hg
  rintro done l rest pr₁ pr₂ rfl ⟨hmeets, hrecords⟩ hstep
  have hext := extends_follow hw hstep
  obtain ⟨hmeets', hrecords'⟩ := records_follow hw hP ih hp hd (by simp) hstep
  refine ⟨fun l' hl' => ?_, hrecords.trans hrecords' hext⟩
  rcases List.mem_append.mp hl' with hl' | hl'
  · exact fun hk => hext.meets (hmeets l' hl' hk)
  · obtain rfl := List.mem_singleton.mp hl'
    exact hmeets'

theorem keyRecords (hw : scene.WellFormed) (hP : scene.Inherited P) (p : PatternId) :
    scene.KeyRecords plan P root p := by
  induction p using Nat.strongRecOn with
  | ind p ih =>
    intro h scope link subject pr pr' hp hg
    rcases (gives_key hw).mp hg with ⟨-, rfl⟩ | ⟨-, hnone, d, pr₁, hd, he, hfold, rfl⟩
    · refine ⟨.inr (.inl ?_), .addResidual p subject⟩
      simp [Progress.addResidual]
    · obtain ⟨hlinks, hrecords⟩ := records_links hw hP ih hp hd hfold
      have hext : Progress.Extends _ pr₁ := extends_foldlM (fun _ _ _ _ => extends_follow hw) hfold
      have hclose : pr₁.Extends (pr₁.close h scope d) := .close h scope d
      have hsubject : ((pr.coupled p subject).recordPath p d.path).couplings.get? p =
          some subject := by
        simp
      have hsettled : scene.Settled (pr₁.close h scope d) (pr₁.close h scope d).pending
          p subject := by
        refine ⟨d.links, ⟨d.path, hd, fun sites hsites => ?_, fun l hl hk =>
          hclose.meets (hlinks l hl hk)⟩, he ▸ pr₁.setsAside_close h scope d⟩
        rw [Progress.couplings_close, hext.path? (by rw [hsubject]; rfl), hsites]
        exact Progress.path?_recordPath_self ..
      refine ⟨.inl (hclose.get? (hext.get? hsubject)), ?_⟩
      constructor
      case runs =>
        intro run hrun
        rw [Progress.pending_close] at hrun
        simpa using hrecords.runs run hrun
      case couplings =>
        intro q key hkey
        rw [Progress.couplings_close] at hkey
        rcases hrecords.couplings q key hkey with hold | hq
        · by_cases hqp : q = p
          · subst hqp
            obtain rfl := Option.some.inj (hsubject.symm.trans hold)
            exact .inr ⟨hp, hsettled⟩
          · rw [Progress.get?_recordPath, Progress.get?_coupled, if_neg hqp] at hold
            exact .inl hold
        · exact .inr ⟨hq.1, hq.2.extends hclose hkey⟩

/-! ## The second pass -/

/-- The run that is keyed meets its key by then. -/
theorem meets_keyRun (hw : scene.WellFormed) {pr pr' : Progress root} {run : Pending root}
    {rest : List (Pending root)} {q : PatternId} {key : Key}
    (hg : (scene.keyRun plan pr run).Gives pr') (hq : pr.Meets (run :: rest) q key) :
    pr'.Meets rest q key := by
  have hext := extends_keyRun hw hg
  rcases hq with hq | hq | ⟨run', hrun', rfl, rfl⟩
  · exact .inl (hext.get? hq)
  · exact .inr (.inl (hext.residuals hq))
  · rcases List.mem_cons.mp hrun' with rfl | hrun'
    · rcases (gives_keyRun hw).mp hg with ⟨-, rfl⟩ | ⟨-, -, d, -, -, rfl⟩
      · refine .inr (.inl ?_)
        simp [Progress.addResidual]
      · refine .inl ?_
        simp
    · exact .inr (.inr ⟨run', hrun', rfl, rfl⟩)

theorem Recorded.keyRun (hw : scene.WellFormed) {pr pr' : Progress root} {run : Pending root}
    {rest : List (Pending root)} {q : PatternId} {key : Key} {links : List (DecidedLink (Fin q))}
    (hq : scene.Recorded pr (run :: rest) q key links) (hkey : pr.couplings.get? q = some key)
    (hg : (scene.keyRun plan pr run).Gives pr') : scene.Recorded pr' rest q key links := by
  obtain ⟨path, hd, hpath, hl⟩ := hq
  refine ⟨path, hd, fun sites hsites => ?_, fun l hmem hk => meets_keyRun hw hg (hl l hmem hk)⟩
  rw [(extends_keyRun hw hg).path? (by rw [hkey]; rfl)]
  exact hpath sites hsites

/-- What a run couples is its star, which is settled by that. -/
theorem settled_of_keyRun (hw : scene.WellFormed) {pr pr' : Progress root} {run : Pending root}
    (rest : List (Pending root)) (hstar : scene.patterns.isStar run.target.val = true)
    (hg : (scene.keyRun plan pr run).Gives pr') {q : PatternId} {key : Key}
    (hkey : pr'.couplings.get? q = some key) :
    pr.couplings.get? q = some key ∨
      q = run.target.val ∧ key = run.key ∧ scene.Settled pr' rest q key := by
  rcases (gives_keyRun hw).mp hg with ⟨-, rfl⟩ | ⟨-, -, d, hd, he, rfl⟩
  · exact .inl hkey
  · rw [Progress.couplings_closeRun, Progress.get?_coupled] at hkey
    split at hkey
    next hq =>
      subst hq
      obtain rfl := Option.some.inj hkey
      obtain ⟨hpath, hlinks⟩ := hd.abnormal_of_isStar hstar
      refine .inr ⟨rfl, rfl, d.links, ⟨d.path, hd, fun sites hsites => ?_, fun l hl hk =>
        (hk (hlinks l hl)).elim⟩, he ▸ Progress.setsAside_closeRun _ run d hlinks⟩
      rw [hpath] at hsites
      cases hsites
    next => exact .inl hkey

theorem settled_runs (hw : scene.WellFormed) {pr pr' : Progress root} {runs : List (Pending root)}
    (hruns : ∀ run ∈ runs, P run.target.val run.key ∧ scene.patterns.isStar run.target.val = true)
    (hall : ∀ q key, pr.couplings.get? q = some key → P q key ∧ scene.Settled pr runs q key)
    (hg : (runs.foldlM (scene.keyRun plan) pr).Gives pr') (q : PatternId) (key : Key)
    (hkey : pr'.couplings.get? q = some key) : P q key ∧ scene.Settled pr' [] q key := by
  induction runs generalizing pr with
  | nil =>
    obtain rfl := Attempt.gives_foldlM_nil.mp hg
    exact hall q key hkey
  | cons run runs ih =>
    rw [List.forall_mem_cons] at hruns
    obtain ⟨pr₁, hrun, hrest⟩ := Attempt.gives_foldlM_cons.mp hg
    refine ih hruns.2 (fun q key hkey => ?_) hrest
    rcases settled_of_keyRun hw runs hruns.1.2 hrun hkey with hold | ⟨rfl, rfl, hq⟩
    · obtain ⟨hP, links, hrecorded, haside⟩ := hall q key hold
      exact ⟨hP, links, hrecorded.keyRun hw hold hrun, (extends_keyRun hw hrun).setsAside haside⟩
    · exact ⟨hruns.1.1, hq⟩

theorem meets_runs (hw : scene.WellFormed) {pr pr' : Progress root} {runs : List (Pending root)}
    {q : PatternId} {key : Key} (hg : (runs.foldlM (scene.keyRun plan) pr).Gives pr')
    (hq : pr.Meets runs q key) : pr'.Meets [] q key := by
  induction runs generalizing pr with
  | nil =>
    obtain rfl := Attempt.gives_foldlM_nil.mp hg
    exact hq
  | cons run runs ih =>
    obtain ⟨pr₁, hrun, hrest⟩ := Attempt.gives_foldlM_cons.mp hg
    exact ih hrest (meets_keyRun hw hrun hq)

/-- By the end of the runs the root meets the subject, and all that is coupled is settled and holds
what is inherited from the subject. -/
theorem settled_attempt (hw : scene.WellFormed) (hP : scene.Inherited P) {subject : Key}
    {pr pr' : Progress root} (hroot : P root subject)
    (hkey : (scene.key plan root root (Nat.le_refl root) 0 .root subject .start).Gives pr)
    (hruns : (pr.pending.foldlM (scene.keyRun plan) pr).Gives pr') :
    pr'.Meets [] root subject ∧
      ∀ q key, pr'.couplings.get? q = some key → P q key ∧ scene.Settled pr' [] q key := by
  obtain ⟨hmeets, hrecords⟩ := keyRecords hw hP root hroot hkey
  refine ⟨meets_runs hw hruns hmeets, settled_runs hw ?_ ?_ hruns⟩
  · exact fun run hrun => (hrecords.runs run hrun).resolve_left List.not_mem_nil
  · exact fun q key hq => (hrecords.couplings q key hq).resolve_left (by rintro ⟨⟩)

end Scene

end Espalier
