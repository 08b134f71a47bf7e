import Espalier.Proofs.Query
import Espalier.Search.Basic

/-!
# The two passes of an attempt

What each step of an attempt may give and how it may end, so that invariants of the passes follow
from one step at a time.
-/

namespace Espalier

variable {s : Schema} {root p : PatternId}

/-- The progress once the links of a pattern have been followed: its abnormal links make a
region. -/
def Progress.close (pr : Progress root) (h : p ≤ root) (scope : Nat) (d : Decided (Fin p)) :
    Progress root :=
  let abnormal := d.links.filter fun l => l.kind = .abnormal
  match d.evaluator with
  | some evaluator =>
    if abnormal.isEmpty ∧ evaluator = .and then pr
    else pr.addRegion ⟨scope, p, evaluator, abnormal.map (·.map (·.castLE h))⟩
  | none => pr

/-- The progress with `q` coupled. -/
def Progress.coupled (pr : Progress root) (q : PatternId) (subject : Key) : Progress root :=
  { pr with couplings := { pr.couplings with keys := (q, subject) :: pr.couplings.keys } }

theorem DecidedLink.target_le (l : DecidedLink (Fin p)) (h : p ≤ root) : l.target.val ≤ root :=
  Nat.le_trans (Nat.le_of_lt l.target.isLt) h

theorem Pending.target_le (run : Pending root) : run.target.val ≤ root :=
  Nat.le_of_lt run.target.isLt

/-- The progress with the abnormal links of a coupled star run made a region. -/
def Progress.closeRun (pr : Progress root) (run : Pending root) (d : Decided (Fin run.target.val)) :
    Progress root :=
  match d.evaluator with
  | some evaluator => pr.addRegion ⟨run.scope, run.target.val, evaluator,
      d.links.map (·.map (·.castLE run.target_le))⟩
  | none => pr

namespace Progress

section Fields

variable (pr : Progress root) (h : p ≤ root) (scope : Nat) (d : Decided (Fin p)) (q : PatternId)
  (subject : Key) (path : Option (List Site)) (run : Pending root)
  (d' : Decided (Fin run.target.val))

@[simp] theorem residuals_coupled : (pr.coupled q subject).residuals = pr.residuals := rfl

@[simp] theorem pending_coupled : (pr.coupled q subject).pending = pr.pending := rfl

@[simp] theorem regions_coupled : (pr.coupled q subject).regions = pr.regions := rfl

@[simp] theorem get?_coupled (q' : PatternId) : (pr.coupled q subject).couplings.get? q' =
    if q' = q then some subject else pr.couplings.get? q' := by
  change List.lookup q' ((q, subject) :: pr.couplings.keys) = _
  rw [List.lookup_cons]
  by_cases hq : q' = q
  · simp [hq]
  · rw [beq_false_of_ne hq, if_neg hq]
    rfl

@[simp] theorem residuals_recordPath : (pr.recordPath q path).residuals = pr.residuals := by
  cases path <;> rfl

@[simp] theorem pending_recordPath : (pr.recordPath q path).pending = pr.pending := by
  cases path <;> rfl

@[simp] theorem regions_recordPath : (pr.recordPath q path).regions = pr.regions := by
  cases path <;> rfl

@[simp] theorem get?_recordPath (q' : PatternId) :
    (pr.recordPath q path).couplings.get? q' = pr.couplings.get? q' := by
  cases path <;> rfl

theorem path?_recordPath_self (sites : List Site) :
    (pr.recordPath q (some sites)).couplings.path? q = some sites := by
  change List.lookup q ((q, sites) :: pr.couplings.paths) = _
  rw [List.lookup_cons, beq_self_eq_true]

@[simp] theorem path?_recordPath_of_ne {q' : PatternId} (hq : q' ≠ q) :
    (pr.recordPath q path).couplings.path? q' = pr.couplings.path? q' := by
  cases path with
  | none => rfl
  | some path =>
    change List.lookup q' ((q, path) :: pr.couplings.paths) = _
    rw [List.lookup_cons, beq_false_of_ne hq]
    rfl

/-- The abnormal links make no region if there are none that could fail. -/
theorem close_eq :
    pr.close h scope d = pr ∧ (∀ evaluator, d.evaluator = some evaluator →
      evaluator = .and ∧ ∀ l ∈ d.links, l.kind ≠ .abnormal) ∨
    ∃ evaluator, d.evaluator = some evaluator ∧ pr.close h scope d = pr.addRegion
      ⟨scope, p, evaluator, (d.links.filter fun l => l.kind = .abnormal).map
        (·.map (·.castLE h))⟩ := by
  rw [close]
  cases d.evaluator with
  | none => exact .inl ⟨rfl, by simp⟩
  | some evaluator =>
    dsimp only
    split
    next hempty => exact .inl ⟨rfl, by simpa [and_comm] using hempty⟩
    next => exact .inr ⟨evaluator, rfl, rfl⟩

@[simp] theorem couplings_close : (pr.close h scope d).couplings = pr.couplings := by
  rcases pr.close_eq h scope d with ⟨heq, -⟩ | ⟨_, -, heq⟩ <;> simp [heq, addRegion]

@[simp] theorem pending_close : (pr.close h scope d).pending = pr.pending := by
  rcases pr.close_eq h scope d with ⟨heq, -⟩ | ⟨_, -, heq⟩ <;> simp [heq, addRegion]

@[simp] theorem couplings_closeRun : (pr.closeRun run d').couplings = pr.couplings := by
  rw [closeRun]
  cases d'.evaluator <;> rfl

end Fields

/-- The progress `pr'` comes after `pr`: nothing coupled changes and nothing set aside is lost. -/
structure Extends (pr pr' : Progress root) : Prop where
  get? : ∀ {q k}, pr.couplings.get? q = some k → pr'.couplings.get? q = some k
  path? : ∀ {q}, (pr.couplings.get? q).isSome = true →
    pr'.couplings.path? q = pr.couplings.path? q
  residuals : pr.residuals ⊆ pr'.residuals
  pending : pr.pending ⊆ pr'.pending
  regions : pr.regions ⊆ pr'.regions

namespace Extends

variable {pr pr' pr'' : Progress root}

theorem refl (pr : Progress root) : pr.Extends pr :=
  ⟨id, fun _ => rfl, fun _ => id, fun _ => id, fun _ => id⟩

theorem trans (h : pr.Extends pr') (h' : pr'.Extends pr'') : pr.Extends pr'' where
  get? hq := h'.get? (h.get? hq)
  path? hq := by
    obtain ⟨k, hk⟩ := Option.isSome_iff_exists.mp hq
    rw [h'.path? (by rw [h.get? hk]; rfl), h.path? hq]
  residuals := List.Subset.trans h.residuals h'.residuals
  pending := List.Subset.trans h.pending h'.pending
  regions := List.Subset.trans h.regions h'.regions

theorem isSome_get? (h : pr.Extends pr') {q : PatternId}
    (hq : (pr.couplings.get? q).isSome = true) : (pr'.couplings.get? q).isSome = true := by
  obtain ⟨k, hk⟩ := Option.isSome_iff_exists.mp hq
  rw [h.get? hk]
  rfl

theorem coupled {q : PatternId} (hq : pr.couplings.get? q = none) (subject : Key)
    (path : Option (List Site)) : pr.Extends ((pr.coupled q subject).recordPath q path) where
  get? {q' k} hk := by
    have hne : q' ≠ q := by
      rintro rfl
      rw [hq] at hk
      cases hk
    simpa [hne] using hk
  path? {q'} hk := by
    have hne : q' ≠ q := by
      rintro rfl
      rw [hq] at hk
      cases hk
    rw [path?_recordPath_of_ne _ _ _ hne]
    rfl
  residuals := by simp
  pending := by simp
  regions := by simp

theorem addResidual (q : PatternId) (subject : Key) : pr.Extends (pr.addResidual q subject) :=
  ⟨id, fun _ => rfl, by simp [Progress.addResidual], fun _ => id, fun _ => id⟩

theorem addPending (run : Pending root) : pr.Extends (pr.addPending run) :=
  ⟨id, fun _ => rfl, fun _ => id, by simp [Progress.addPending], fun _ => id⟩

theorem addRegion (region : Region root) : pr.Extends (pr.addRegion region) :=
  ⟨id, fun _ => rfl, fun _ => id, fun _ => id, by simp [Progress.addRegion]⟩

theorem close (h : p ≤ root) (scope : Nat) (d : Decided (Fin p)) :
    pr.Extends (pr.close h scope d) := by
  rcases pr.close_eq h scope d with ⟨heq, -⟩ | ⟨_, -, heq⟩
  · rw [heq]
    exact refl pr
  · rw [heq]
    exact addRegion _

theorem closeRun (run : Pending root) (d : Decided (Fin run.target.val)) :
    pr.Extends (pr.closeRun run d) := by
  rw [Progress.closeRun]
  cases d.evaluator with
  | none => exact refl pr
  | some evaluator => exact addRegion _

end Extends

end Progress

namespace Scene

variable {scene : Scene s} {plan : Plan}

/-- Follow one decided link of `p`. -/
def follow (scene : Scene s) (plan : Plan) (h : p ≤ root) (scope : Nat) (pr : Progress root)
    (l : DecidedLink (Fin p)) : Attempt (Progress root) :=
  match l.kind with
  | .normal =>
    let next := ((plan.scope scope).disjunct? p l.slot).getD scope
    scene.key plan root l.target.val (l.target_le h) next (.child p l.slot) l.key pr
  | .multiplicity => pure (pr.addPending ⟨scope, .child p l.slot, l.target.castLE h, l.key⟩)
  | .abnormal => pure pr

theorem key_of_isKeyer {h : p ≤ root} {scope : Nat} {link : LinkId} {subject : Key}
    {pr : Progress root} (hk : (plan.scope scope).isKeyer link = true) :
    scene.key plan root p h scope link subject pr = (do
      let pr ← pr.couple p subject
      let d ← scene.decide p subject
      let pr ← d.links.foldlM (scene.follow plan h scope) (pr.recordPath p d.path)
      return pr.close h scope d) := by
  rw [key, if_pos hk]
  refine bind_congr fun pr₁ => bind_congr fun d => ?_
  refine congrArg₂ (· >>= ·) rfl ?_
  funext pr₂
  dsimp only [Progress.close]
  cases d.evaluator with
  | none => rfl
  | some evaluator =>
    dsimp only
    split <;> rfl

theorem key_of_not_isKeyer {h : p ≤ root} {scope : Nat} {link : LinkId} {subject : Key}
    {pr : Progress root} (hk : (plan.scope scope).isKeyer link = false) :
    scene.key plan root p h scope link subject pr = pure (pr.addResidual p subject) := by
  rw [key, hk]
  rfl

theorem gives_couple {pr pr' : Progress root} {q : PatternId} {subject : Key} :
    (pr.couple q subject).Gives pr' ↔
      pr.couplings.get? q = none ∧ pr' = pr.coupled q subject := by
  rw [Progress.couple, Couplings.couple, Progress.coupled]
  by_cases hq : (pr.couplings.get? q).isSome = true
  · simp [if_pos hq, Option.isSome_iff_ne_none.mp hq]
  · simp [Option.not_isSome_iff_eq_none.mp hq]

theorem faults_couple {pr : Progress root} {q : PatternId} {subject : Key} {e : Fault} :
    (pr.couple q subject).Faults e ↔ (pr.couplings.get? q).isSome = true ∧ e = .keyedTwice q := by
  rw [Progress.couple, Couplings.couple]
  by_cases hq : (pr.couplings.get? q).isSome = true
  · simp [hq]
  · simp [hq]

/-! ## The first pass -/

section Key

variable {h : p ≤ root} {scope : Nat} {link : LinkId} {subject : Key} {pr pr' : Progress root}

theorem gives_follow {l : DecidedLink (Fin p)} : (scene.follow plan h scope pr l).Gives pr' ↔
    l.kind = .normal ∧ (scene.key plan root l.target.val (l.target_le h)
      (((plan.scope scope).disjunct? p l.slot).getD scope) (.child p l.slot) l.key pr).Gives pr' ∨
    l.kind = .multiplicity ∧
      pr' = pr.addPending ⟨scope, .child p l.slot, l.target.castLE h, l.key⟩ ∨
    l.kind = .abnormal ∧ pr' = pr := by
  rw [follow]
  cases l.kind <;> simp

theorem faults_follow {l : DecidedLink (Fin p)} {e : Fault} :
    (scene.follow plan h scope pr l).Faults e ↔
      l.kind = .normal ∧ (scene.key plan root l.target.val (l.target_le h)
        (((plan.scope scope).disjunct? p l.slot).getD scope) (.child p l.slot) l.key
        pr).Faults e := by
  rw [follow]
  cases l.kind <;> simp

theorem gives_key (hw : scene.WellFormed) :
    (scene.key plan root p h scope link subject pr).Gives pr' ↔
      (plan.scope scope).isKeyer link = false ∧ pr' = pr.addResidual p subject ∨
      (plan.scope scope).isKeyer link = true ∧ pr.couplings.get? p = none ∧
        ∃ (d : Decided (Fin p)) (pr₁ : Progress root), scene.Decides p subject d.links d.path ∧
          d.evaluator = (scene.patterns.query p).evaluator ∧
          (d.links.foldlM (scene.follow plan h scope)
            ((pr.coupled p subject).recordPath p d.path)).Gives pr₁ ∧
          pr' = pr₁.close h scope d := by
  cases hk : (plan.scope scope).isKeyer link with
  | false => simp [key_of_not_isKeyer hk]
  | true =>
    rw [key_of_isKeyer hk]
    simp only [Attempt.gives_bind, Attempt.gives_pure, gives_couple, gives_decide hw]
    simp [and_assoc]

theorem faults_key (hw : scene.WellFormed) {e : Fault} :
    (scene.key plan root p h scope link subject pr).Faults e ↔
      (plan.scope scope).isKeyer link = true ∧
        ((pr.couplings.get? p).isSome = true ∧ e = .keyedTwice p ∨
          pr.couplings.get? p = none ∧ ((scene.decide p subject).Faults e ∨
            ∃ d : Decided (Fin p), scene.Decides p subject d.links d.path ∧
              d.evaluator = (scene.patterns.query p).evaluator ∧
              (d.links.foldlM (scene.follow plan h scope)
                ((pr.coupled p subject).recordPath p d.path)).Faults e)) := by
  cases hk : (plan.scope scope).isKeyer link with
  | false => simp [key_of_not_isKeyer hk]
  | true =>
    rw [key_of_isKeyer hk]
    simp only [Attempt.faults_bind, Attempt.faults_pure, gives_couple, faults_couple,
      gives_decide hw]
    simp [and_assoc]

/-- A loop extends the progress if its steps do. -/
theorem extends_foldlM {α : Type} {f : Progress root → α → Attempt (Progress root)} {as : List α}
    (hstep : ∀ a ∈ as, ∀ pr pr', (f pr a).Gives pr' → pr.Extends pr')
    (hg : (as.foldlM f pr).Gives pr') : pr.Extends pr' :=
  Attempt.foldlM_invariant (fun _ pr₁ => pr.Extends pr₁) (.refl pr)
    (fun _ a _ _ _ has hpr hf => hpr.trans (hstep a (by simp [has]) _ _ hf)) hg

theorem extends_key (hw : scene.WellFormed)
    (hg : (scene.key plan root p h scope link subject pr).Gives pr') : pr.Extends pr' := by
  induction p using Nat.strongRecOn generalizing scope link subject pr pr' with
  | ind p ih =>
    rcases (gives_key hw).mp hg with ⟨-, rfl⟩ | ⟨-, hp, d, pr₁, -, -, hfold, rfl⟩
    · exact .addResidual _ _
    · have hlinks : Progress.Extends _ pr₁ := extends_foldlM (fun l _ pr pr' hl => by
        rcases gives_follow.mp hl with ⟨-, hl⟩ | ⟨-, rfl⟩ | ⟨-, rfl⟩
        · exact ih l.target.val l.target.isLt hl
        · exact .addPending _
        · exact .refl _) hfold
      exact ((Progress.Extends.coupled hp subject d.path).trans hlinks).trans (.close h scope d)

theorem extends_follow (hw : scene.WellFormed) {l : DecidedLink (Fin p)}
    (hg : (scene.follow plan h scope pr l).Gives pr') : pr.Extends pr' := by
  rcases gives_follow.mp hg with ⟨-, hg⟩ | ⟨-, rfl⟩ | ⟨-, rfl⟩
  · exact extends_key hw hg
  · exact .addPending _
  · exact .refl _

end Key

/-! ## The second pass -/

section Restrict

variable {pr pr' : Progress root} {e : Fault}

theorem keyRun_of_isKeyer {run : Pending root}
    (hk : (plan.scope run.scope).isKeyer run.link = true) :
    scene.keyRun plan pr run = (do
      let pr ← pr.couple run.target.val run.key
      let d ← scene.decide run.target.val run.key
      return pr.closeRun run d) := by
  rw [keyRun, if_pos hk]
  refine bind_congr fun pr₁ => bind_congr fun d => ?_
  rw [Progress.closeRun]
  cases d.evaluator <;> rfl

theorem gives_keyRun (hw : scene.WellFormed) {run : Pending root} :
    (scene.keyRun plan pr run).Gives pr' ↔
      (plan.scope run.scope).isKeyer run.link = false ∧
        pr' = pr.addResidual run.target.val run.key ∨
      (plan.scope run.scope).isKeyer run.link = true ∧ pr.couplings.get? run.target.val = none ∧
        ∃ d : Decided (Fin run.target.val), scene.Decides run.target.val run.key d.links d.path ∧
          d.evaluator = (scene.patterns.query run.target.val).evaluator ∧
          pr' = (pr.coupled run.target.val run.key).closeRun run d := by
  cases hk : (plan.scope run.scope).isKeyer run.link with
  | false => simp [keyRun, hk]
  | true =>
    rw [keyRun_of_isKeyer hk]
    simp only [Attempt.gives_bind, Attempt.gives_pure, gives_couple, gives_decide hw]
    simp [and_assoc]

theorem faults_keyRun {run : Pending root} :
    (scene.keyRun plan pr run).Faults e ↔ (plan.scope run.scope).isKeyer run.link = true ∧
      ((pr.couplings.get? run.target.val).isSome = true ∧ e = .keyedTwice run.target.val ∨
        pr.couplings.get? run.target.val = none ∧
          (scene.decide run.target.val run.key).Faults e) := by
  cases hk : (plan.scope run.scope).isKeyer run.link with
  | false => simp [keyRun, hk]
  | true =>
    rw [keyRun_of_isKeyer hk]
    simp only [Attempt.faults_bind, Attempt.faults_pure, gives_couple, faults_couple]
    simp

theorem extends_keyRun (hw : scene.WellFormed) {run : Pending root}
    (hg : (scene.keyRun plan pr run).Gives pr') : pr.Extends pr' := by
  rcases (gives_keyRun hw).mp hg with ⟨-, rfl⟩ | ⟨-, hp, d, -, -, rfl⟩
  · exact .addResidual _ _
  · exact (Progress.Extends.coupled hp run.key none).trans (.closeRun run d)

variable {master : View}
  {inner : Fin root → Plan → Key → View → Except Fault (Option Couplings)}

theorem gives_restrict : (scene.restrict plan master inner pr).Gives pr' ↔
    (pr.pending.foldlM (scene.keyRun plan) pr).Gives pr' ∧
      (∀ r ∈ pr'.residuals, master.restrict scene.forest pr'.couplings r.1 r.2 = .ok ()) ∧
      ∀ region ∈ pr'.regions,
        evaluate plan (pr'.couplings :: master) inner region = .ok true := by
  rw [restrict]
  simp only [Attempt.gives_bind, Attempt.gives_pure, Attempt.gives_forM, Attempt.gives_settled]
  constructor
  · rintro ⟨pr₁, hruns, -, hresiduals, -, hregions, rfl⟩
    refine ⟨hruns, hresiduals, fun region hregion => ?_⟩
    have hgives := hregions region hregion
    split at hgives
    · simp at hgives
    · assumption
    · simp at hgives
  · rintro ⟨hruns, hresiduals, hregions⟩
    refine ⟨pr', hruns, ⟨⟩, hresiduals, ⟨⟩, fun region hregion => ?_, rfl⟩
    rw [hregions region hregion]
    exact Attempt.gives_pure.mpr rfl

theorem faults_restrict (h : (scene.restrict plan master inner pr).Faults e) :
    (pr.pending.foldlM (scene.keyRun plan) pr).Faults e ∨
      ∃ pr₁, (pr.pending.foldlM (scene.keyRun plan) pr).Gives pr₁ ∧
        ((∃ r ∈ pr₁.residuals,
            master.restrict scene.forest pr₁.couplings r.1 r.2 = .error (.fault e)) ∨
          ∃ region ∈ pr₁.regions,
            evaluate plan (pr₁.couplings :: master) inner region = .error e) := by
  rw [restrict] at h
  simp only [Attempt.faults_bind, Attempt.faults_pure, and_false, exists_false, or_false] at h
  rcases h with h | ⟨pr₁, hruns, h | ⟨-, -, h⟩⟩
  · exact .inl h
  · obtain ⟨r, hr, h⟩ := Attempt.faults_forM h
    exact .inr ⟨pr₁, hruns, .inl ⟨r, hr, Attempt.faults_settled.mp h⟩⟩
  · obtain ⟨region, hregion, h⟩ := Attempt.faults_forM h
    refine .inr ⟨pr₁, hruns, .inr ⟨region, hregion, ?_⟩⟩
    split at h
    · obtain rfl := Attempt.faults_fault.mp h
      assumption
    · simp at h
    · simp at h

theorem faults_restrict_of_runs (h : (pr.pending.foldlM (scene.keyRun plan) pr).Faults e) :
    (scene.restrict plan master inner pr).Faults e :=
  Attempt.faults_bind.mpr (.inl h)

theorem gives_attempt {subject : Key} {c : Couplings} :
    (scene.attempt plan root subject master inner).Gives c ↔
      ∃ pr pr', (scene.key plan root root (Nat.le_refl root) 0 .root subject .start).Gives pr ∧
        (scene.restrict plan master inner pr).Gives pr' ∧ c = pr'.couplings := by
  rw [attempt]
  simp only [Attempt.gives_bind, Attempt.gives_pure]
  grind

theorem faults_attempt {subject : Key} :
    (scene.attempt plan root subject master inner).Faults e ↔
      (scene.key plan root root (Nat.le_refl root) 0 .root subject .start).Faults e ∨
        ∃ pr, (scene.key plan root root (Nat.le_refl root) 0 .root subject .start).Gives pr ∧
          (scene.restrict plan master inner pr).Faults e := by
  rw [attempt]
  simp

/-- An attempt comes to an end if what it has set aside holds, but for regions that come to a
fault. -/
theorem ends_attempt_of_gives {subject : Key}
    (hkey : (scene.key plan root root (Nat.le_refl root) 0 .root subject .start).Gives pr)
    (hruns : (pr.pending.foldlM (scene.keyRun plan) pr).Gives pr')
    (hresiduals : ∀ r ∈ pr'.residuals, master.restrict scene.forest pr'.couplings r.1 r.2 = .ok ())
    (hregions : ∀ region ∈ pr'.regions,
      evaluate plan (pr'.couplings :: master) inner region ≠ .ok false) :
    (scene.attempt plan root subject master inner).Ends fun _ => True := by
  have hrestrict : (scene.restrict plan master inner pr).Ends fun _ => True := by
    refine Attempt.ends_bind (P := (· = pr')) (.inl ⟨pr', hruns, rfl⟩) ?_
    rintro _ - rfl
    refine Attempt.ends_bind (P := fun _ => True) ?_ fun _ _ _ => ?_
    · refine Attempt.ends_forM fun r hr => .inl ⟨⟨⟩, ?_, trivial⟩
      exact Attempt.gives_settled.mpr (hresiduals r hr)
    refine Attempt.ends_bind (P := fun _ => True) ?_ fun _ _ _ =>
      .inl ⟨_, Attempt.gives_pure.mpr rfl, trivial⟩
    refine Attempt.ends_forM fun region hregion => ?_
    split
    next e _ => exact .inr ⟨e, Attempt.faults_fault.mpr rfl⟩
    next => exact .inl ⟨⟨⟩, Attempt.gives_pure.mpr rfl, trivial⟩
    next hfalse => exact (hregions region hregion hfalse).elim
  refine Attempt.ends_bind (P := (· = pr)) (.inl ⟨pr, hkey, rfl⟩) ?_
  rintro _ - rfl
  exact Attempt.ends_bind hrestrict fun _ _ _ => .inl ⟨_, Attempt.gives_pure.mpr rfl, trivial⟩

end Restrict

end Scene

end Espalier
