import Espalier.Proofs.Congruence
import Espalier.Proofs.Keying

/-!
# A search does not tell equal subjects apart

Two attempts at one plan, on equal subjects and amid equal couplings, can be led through the same
links with equal keys: what the one couples and sets aside, the other does too, up to equality.
Residual links then hold for both or for neither.  A region is settled by searches for earlier
patterns, which by induction do not tell its keys apart, whether it asks for a match or for none.
-/

namespace Espalier

variable {s : Schema} {root p : PatternId} {R : NodeId → NodeId → Prop}

/-! ## Progress up to equality -/

/-- Two bindings bind the same patterns, to related keys. -/
def BindsAlike (R : NodeId → NodeId → Prop) (σ σ' : PatternId → Option Key) : Prop :=
  ∀ q, Option.Rel (Key.Alike R) (σ q) (σ' q)

structure Pending.Alike (R : NodeId → NodeId → Prop) (run run' : Pending root) : Prop where
  scope_eq : run.scope = run'.scope
  link_eq : run.link = run'.link
  target_eq : run.target = run'.target
  key : run.key.Alike R run'.key

structure Region.Alike (R : NodeId → NodeId → Prop) (region region' : Region root) : Prop where
  scope_eq : region.scope = region'.scope
  pattern_eq : region.pattern = region'.pattern
  evaluator_eq : region.evaluator = region'.evaluator
  links : Multiset.Rel (DecidedLink.Alike Eq R) (region.links : Multiset (DecidedLink (Fin root)))
    (region'.links : Multiset (DecidedLink (Fin root)))

/-- Two attempts have come equally far. -/
structure Progress.Alike (R : NodeId → NodeId → Prop) (pr pr' : Progress root) : Prop where
  couplings : BindsAlike R pr.couplings.get? pr'.couplings.get?
  residuals : List.Forall₂ (fun r r' => r.1 = r'.1 ∧ r.2.Alike R r'.2) pr.residuals pr'.residuals
  pending : List.Forall₂ (Pending.Alike R) pr.pending pr'.pending
  regions : List.Forall₂ (Region.Alike R) pr.regions pr'.regions

namespace Progress.Alike

variable {pr pr' : Progress root}

theorem start : Progress.Alike R (.start : Progress root) .start :=
  ⟨fun _ => .none, .nil, .nil, .nil⟩

theorem get?_eq_none (h : pr.Alike R pr') {q : PatternId} (hq : pr.couplings.get? q = none) :
    pr'.couplings.get? q = none := by
  have hrel := h.couplings q
  rw [hq] at hrel
  generalize pr'.couplings.get? q = key at hrel
  cases hrel
  rfl

theorem addResidual (h : pr.Alike R pr') (q : PatternId) {key key' : Key}
    (hkey : key.Alike R key') : (pr.addResidual q key).Alike R (pr'.addResidual q key') :=
  { h with residuals := List.rel_append h.residuals (.cons ⟨rfl, hkey⟩ .nil) }

theorem addPending (h : pr.Alike R pr') {run run' : Pending root} (hrun : run.Alike R run') :
    (pr.addPending run).Alike R (pr'.addPending run') :=
  { h with pending := List.rel_append h.pending (.cons hrun .nil) }

theorem addRegion (h : pr.Alike R pr') {region region' : Region root}
    (hregion : region.Alike R region') : (pr.addRegion region).Alike R (pr'.addRegion region') :=
  { h with regions := List.rel_append h.regions (.cons hregion .nil) }

theorem coupled (h : pr.Alike R pr') (q : PatternId) {key key' : Key} (hkey : key.Alike R key')
    (path path' : Option (List Site)) :
    ((pr.coupled q key).recordPath q path).Alike R ((pr'.coupled q key').recordPath q path') where
  couplings q' := by
    by_cases hq : q' = q
    · simpa [hq] using hkey
    · simpa [hq] using h.couplings q'
  residuals := by simpa using h.residuals
  pending := by simpa using h.pending
  regions := by simpa using h.regions

end Progress.Alike

theorem rel_castLE (h : p ≤ root) {links links' : List (DecidedLink (Fin p))}
    (hl : Multiset.Rel (DecidedLink.Alike Eq R) (links : Multiset (DecidedLink (Fin p)))
      (links' : Multiset (DecidedLink (Fin p)))) :
    Multiset.Rel (DecidedLink.Alike Eq R)
      (↑(links.map (·.map (·.castLE h))) : Multiset (DecidedLink (Fin root)))
      (↑(links'.map (·.map (·.castLE h))) : Multiset (DecidedLink (Fin root))) := by
  rw [← Multiset.map_coe, ← Multiset.map_coe, Multiset.rel_map]
  exact hl.mono fun _ _ _ _ h =>
    ⟨h.slot_eq, h.kind_eq, by rw [DecidedLink.map, h.target]; rfl, h.key⟩

theorem Progress.Alike.close {pr pr' : Progress root} (hpr : pr.Alike R pr') (h : p ≤ root)
    (scope : Nat) {d d' : Decided (Fin p)} (he : d.evaluator = d'.evaluator)
    (hl : LinksAlike Eq R d.links d'.links) :
    (pr.close h scope d).Alike R (pr'.close h scope d') := by
  have hempty : (d.links.filter fun l => l.kind = .abnormal).isEmpty =
      (d'.links.filter fun l => l.kind = .abnormal).isEmpty := by
    have hcard := Multiset.card_eq_card_of_rel hl.abnormal
    rw [Multiset.coe_card, Multiset.coe_card] at hcard
    rw [Bool.eq_iff_iff, List.isEmpty_iff_length_eq_zero, List.isEmpty_iff_length_eq_zero, hcard]
  unfold Progress.close
  rw [he]
  dsimp only
  rw [hempty]
  cases d'.evaluator with
  | none => exact hpr
  | some evaluator =>
    dsimp only
    split
    · exact hpr
    · exact hpr.addRegion ⟨rfl, rfl, rfl, rel_castLE h hl.abnormal⟩

namespace Scene

variable {scene : Scene s} {plan : Plan}

theorem alike_symm {key key' : Key} (h : key.Alike scene.Equal key') : key'.Alike scene.Equal key :=
  h.flip.mono fun _ _ _ _ => Forest.EqualBelow.symm

theorem bindsAlike_symm {σ σ' : PatternId → Option Key} (h : BindsAlike scene.Equal σ σ') :
    BindsAlike scene.Equal σ' σ := by
  intro q
  have hq := h q
  generalize σ q = key, σ' q = key' at hq
  cases hq with
  | none => exact .none
  | some h => exact .some (alike_symm h)

theorem compare_of_alike {key key' : Key} (h : key.Alike scene.Equal key') :
    key.compare scene.forest key' = .eq :=
  Key.compare_eq_iff_alike.mpr (h.mono fun _ _ _ _ => Forest.EqualBelow.compare_eq)

theorem bindsAlike_or {σ σ' τ τ' : PatternId → Option Key} (h : BindsAlike R σ σ')
    (h' : BindsAlike R τ τ') :
    BindsAlike R (fun q => (σ q).or (τ q)) fun q => (σ' q).or (τ' q) := by
  intro q
  have hq := h q
  dsimp only
  generalize σ q = key, σ' q = key' at hq
  cases hq with
  | none => exact h' q
  | some h => exact .some h

/-! ## The passes -/

theorem gives_links_iff {h : p ≤ root} {scope : Nat} {pr pr' : Progress root}
    {links : List (DecidedLink (Fin p))} : (links.foldlM (scene.follow plan h scope) pr).Gives pr' ↔
      ((links.filter fun l => l.kind ≠ .abnormal).foldlM (scene.follow plan h scope)
        pr).Gives pr' := by
  induction links generalizing pr with
  | nil => rfl
  | cons l links ih =>
    by_cases hl : l.kind = .abnormal
    · rw [List.filter_cons_of_neg (by simp [hl]), Attempt.gives_foldlM_cons, ← ih]
      simp [follow, hl]
    · rw [List.filter_cons_of_pos (by simp [hl]), Attempt.gives_foldlM_cons,
        Attempt.gives_foldlM_cons]
      simp only [ih]

/-- From equal subjects, and having come equally far, the first pass at `p` comes equally far. -/
def KeyMirrors (scene : Scene s) (plan : Plan) (root p : PatternId) : Prop :=
  ∀ {h : p ≤ root} {scope : Nat} {link : LinkId} {subject subject' : Key}
    {pr pr' pr₁ : Progress root}, subject.Alike scene.Equal subject' → pr.Alike scene.Equal pr' →
    (scene.key plan root p h scope link subject pr).Gives pr₁ →
    ∃ pr₁', (scene.key plan root p h scope link subject' pr').Gives pr₁' ∧
      pr₁.Alike scene.Equal pr₁'

theorem exists_gives_follow (ih : ∀ q < p, scene.KeyMirrors plan root q) {h : p ≤ root}
    {scope : Nat} {l l' : DecidedLink (Fin p)} (hl : l.Alike Eq scene.Equal l')
    {pr pr' pr₁ : Progress root} (hpr : pr.Alike scene.Equal pr')
    (hg : (scene.follow plan h scope pr l).Gives pr₁) :
    ∃ pr₁', (scene.follow plan h scope pr' l').Gives pr₁' ∧ pr₁.Alike scene.Equal pr₁' := by
  obtain ⟨slot, target, kind, key⟩ := l
  obtain ⟨slot', target', kind', key'⟩ := l'
  obtain ⟨rfl, rfl, rfl, hkey⟩ := hl
  rcases gives_follow.mp hg with ⟨hk, hg⟩ | ⟨hk, rfl⟩ | ⟨hk, rfl⟩
  · obtain ⟨pr₁', hg', hpr₁⟩ := ih target.val target.isLt hkey hpr hg
    exact ⟨pr₁', gives_follow.mpr (.inl ⟨hk, hg'⟩), hpr₁⟩
  · exact ⟨_, gives_follow.mpr (.inr (.inl ⟨hk, rfl⟩)), hpr.addPending ⟨rfl, rfl, rfl, hkey⟩⟩
  · exact ⟨pr', gives_follow.mpr (.inr (.inr ⟨hk, rfl⟩)), hpr⟩

/-- Two loops over related elements come equally far if their steps do. -/
theorem exists_gives_foldlM {α β : Type} {r : α → β → Prop}
    {f : Progress root → α → Attempt (Progress root)}
    {g : Progress root → β → Attempt (Progress root)}
    {as : List α} {bs : List β} (hr : List.Forall₂ r as bs) {pr pr' pr₁ : Progress root}
    (hpr : pr.Alike R pr') (hg : (as.foldlM f pr).Gives pr₁)
    (hstep : ∀ a b pr pr' pr₁, r a b → pr.Alike R pr' → (f pr a).Gives pr₁ →
      ∃ pr₁', (g pr' b).Gives pr₁' ∧ pr₁.Alike R pr₁') :
    ∃ pr₁', (bs.foldlM g pr').Gives pr₁' ∧ pr₁.Alike R pr₁' := by
  induction hr generalizing pr pr' with
  | nil =>
    obtain rfl := Attempt.gives_foldlM_nil.mp hg
    exact ⟨pr', Attempt.gives_foldlM_nil.mpr rfl, hpr⟩
  | cons hab _ ih =>
    obtain ⟨pr₂, hfirst, hrest⟩ := Attempt.gives_foldlM_cons.mp hg
    obtain ⟨pr₂', hfirst', hpr₂⟩ := hstep _ _ _ _ _ hab hpr hfirst
    obtain ⟨pr₁', hrest', hpr₁⟩ := ih hpr₂ hrest
    exact ⟨pr₁', Attempt.gives_foldlM_cons.mpr ⟨pr₂', hfirst', hrest'⟩, hpr₁⟩

theorem keyMirrors (hw : scene.WellFormed) (p : PatternId) : scene.KeyMirrors plan root p := by
  induction p using Nat.strongRecOn with
  | ind p ih =>
    intro h scope link subject subject' pr pr' pr₁ hs hpr hg
    rcases (gives_key hw).mp hg with ⟨hk, rfl⟩ | ⟨hk, hp, d, pr₂, hd, he, hfold, rfl⟩
    · exact ⟨_, (gives_key hw).mpr (.inl ⟨hk, rfl⟩), hpr.addResidual p hs⟩
    · obtain ⟨links', path', hd', hl⟩ := hd.exists_alike hs
      obtain ⟨pr₂', hfold', hpr₂⟩ := exists_gives_foldlM hl.followed
        (hpr.coupled p hs d.path path') (gives_links_iff.mp hfold)
        fun _ _ _ _ _ hl hpr hg => exists_gives_follow ih hl hpr hg
      let d' : Decided (Fin p) := ⟨links', d.evaluator, path'⟩
      refine ⟨pr₂'.close h scope d', ?_, hpr₂.close h scope rfl hl⟩
      exact (gives_key hw).mpr (.inr ⟨hk, hpr.get?_eq_none hp, d', pr₂', hd', he,
        gives_links_iff.mpr hfold', rfl⟩)

theorem exists_gives_keyRun (hw : scene.WellFormed) {run run' : Pending root}
    (hrun : run.Alike scene.Equal run') {pr pr' pr₁ : Progress root}
    (hpr : pr.Alike scene.Equal pr') (hg : (scene.keyRun plan pr run).Gives pr₁) :
    ∃ pr₁', (scene.keyRun plan pr' run').Gives pr₁' ∧ pr₁.Alike scene.Equal pr₁' := by
  obtain ⟨scope, link, target, key⟩ := run
  obtain ⟨scope', link', target', key'⟩ := run'
  obtain ⟨rfl, rfl, rfl, hkey⟩ := hrun
  rcases (gives_keyRun hw).mp hg with ⟨hk, rfl⟩ | ⟨hk, hp, d, hd, he, rfl⟩
  · exact ⟨_, (gives_keyRun hw).mpr (.inl ⟨hk, rfl⟩), hpr.addResidual _ hkey⟩
  · obtain ⟨links', path', hd', hl⟩ := hd.exists_alike hkey
    let d' : Decided (Fin target.val) := ⟨links', d.evaluator, path'⟩
    refine ⟨_, (gives_keyRun hw).mpr (.inr ⟨hk, hpr.get?_eq_none hp, d', hd', he, rfl⟩), ?_⟩
    have hcoupled := hpr.coupled target.val hkey none none
    unfold Progress.closeRun
    dsimp only [d']
    cases d.evaluator with
    | none => exact hcoupled
    | some evaluator => exact hcoupled.addRegion ⟨rfl, rfl, rfl, rel_castLE _ hl.rel⟩

/-! ## Regions -/

section Regions

variable {view view' : View}
  {inner : Fin root → Plan → Key → View → Except Fault (Option Couplings)}
  {i : Nat} {links : List (DecidedLink (Fin root))}

theorem allMatch_eq_true (h : allMatch plan view inner i p links = .ok true) :
    ∀ l ∈ links, ∃ nested c, (plan.scope i).nested? p l.slot = some nested ∧
      inner l.target nested l.key view = .ok (some c) := by
  induction links with
  | nil => simp
  | cons l links ih =>
    rw [allMatch] at h
    rw [List.forall_mem_cons]
    split at h
    next => cases h
    next nested hnested =>
      split at h
      next => cases h
      next => cases h
      next c hc => exact ⟨⟨nested, c, hnested, hc⟩, ih h⟩

theorem allMatch_eq_false (h : allMatch plan view inner i p links = .ok false) :
    ∃ l ∈ links, ∃ nested, (plan.scope i).nested? p l.slot = some nested ∧
      inner l.target nested l.key view = .ok none := by
  induction links with
  | nil => cases h
  | cons l links ih =>
    rw [allMatch] at h
    split at h
    next => cases h
    next nested hnested =>
      split at h
      next => cases h
      next hnone => exact ⟨l, by simp, nested, hnested, hnone⟩
      next =>
        obtain ⟨l', hl', hl''⟩ := ih h
        exact ⟨l', by simp [hl'], hl''⟩

/-- The outcomes of two searches do not contradict each other: a fault of either leaves that
open. -/
def Concur (r r' : Except Fault (Option Couplings)) : Prop :=
  ∀ c c', r = .ok c → r' = .ok c' → c.isSome = c'.isSome

theorem Concur.symm {r r' : Except Fault (Option Couplings)} (h : Concur r r') : Concur r' r :=
  fun c c' hc hc' => (h c' c hc' hc).symm

variable {root' p' : PatternId} {plan' : Plan} {i' : Nat}
  {inner' : Fin root' → Plan → Key → View → Except Fault (Option Couplings)}

/-- What is true of all links of one region is false of no link of another whose searches concur. -/
theorem not_allMatch_eq_false {links' : List (DecidedLink (Fin root'))}
    (hl : ∀ l' ∈ links', ∃ l ∈ links, ∀ nested nested',
      (plan.scope i).nested? p l.slot = some nested →
      (plan'.scope i').nested? p' l'.slot = some nested' →
      Concur (inner l.target nested l.key view) (inner' l'.target nested' l'.key view'))
    (h : allMatch plan view inner i p links = .ok true) :
    allMatch plan' view' inner' i' p' links' ≠ .ok false := by
  intro h'
  obtain ⟨l', hl', nested', hnested', hnone⟩ := allMatch_eq_false h'
  obtain ⟨l, hmem, hconcur⟩ := hl l' hl'
  obtain ⟨nested, c, hnested, hc⟩ := allMatch_eq_true h l hmem
  exact Bool.noConfusion (hconcur nested nested' hnested hnested' (some c) none hc hnone)

theorem evaluate_eq_ok {region : Region root} {b : Bool}
    (h : evaluate plan view inner region = .ok b) :
    ∃ all, allMatch plan view inner region.scope region.pattern region.links = .ok all ∧
      region.evaluator.combine all = b := by
  rw [evaluate] at h
  cases hall : allMatch plan view inner region.scope region.pattern region.links with
  | error e => simp [hall, Except.map] at h
  | ok all => exact ⟨all, rfl, by simpa [hall, Except.map] using h⟩

/-- Of two regions whose searches concur, none fails where the other is satisfied. -/
theorem evaluate_ne_false {region : Region root} {region' : Region root'}
    {E : DecidedLink (Fin root) → DecidedLink (Fin root') → Prop}
    (he : region.evaluator = region'.evaluator)
    (hto : ∀ l ∈ region.links, ∃ l' ∈ region'.links, E l l')
    (hfrom : ∀ l' ∈ region'.links, ∃ l ∈ region.links, E l l')
    (hconcur : ∀ l ∈ region.links, ∀ l' ∈ region'.links, E l l' → ∀ nested nested',
      (plan.scope region.scope).nested? region.pattern l.slot = some nested →
      (plan'.scope region'.scope).nested? region'.pattern l'.slot = some nested' →
      Concur (inner l.target nested l.key view) (inner' l'.target nested' l'.key view'))
    (h : evaluate plan view inner region = .ok true) :
    evaluate plan' view' inner' region' ≠ .ok false := by
  intro h'
  obtain ⟨all, hall, hcombine⟩ := evaluate_eq_ok h
  obtain ⟨all', hall', hcombine'⟩ := evaluate_eq_ok h'
  rw [← he] at hcombine'
  generalize region.evaluator = evaluator at hcombine hcombine'
  cases evaluator with
  | and =>
    cases hcombine
    cases hcombine'
    refine not_allMatch_eq_false (fun l' hl' => ?_) hall hall'
    obtain ⟨l, hl, hll'⟩ := hfrom l' hl'
    exact ⟨l, hl, hconcur l hl l' hl' hll'⟩
  | not =>
    obtain rfl : all = false := by simpa [Evaluator.combine] using hcombine
    obtain rfl : all' = true := by simpa [Evaluator.combine] using hcombine'
    refine not_allMatch_eq_false (fun l hl => ?_) hall' hall
    obtain ⟨l', hl', hll'⟩ := hto l hl
    exact ⟨l', hl', fun nested' nested hn' hn =>
      (hconcur l hl l' hl' hll' nested nested' hn hn').symm⟩

end Regions

/-! ## Searches -/

theorem restrict_eq_ok {view view' : View} {c c' : Couplings} {q : PatternId} {key key' : Key}
    (hc : BindsAlike scene.Equal c.get? c'.get?)
    (hview : BindsAlike scene.Equal view.get? view'.get?)
    (hkey : key.Alike scene.Equal key') (h : view.restrict scene.forest c q key = .ok ()) :
    view'.restrict scene.forest c' q key' = .ok () := by
  have hbound : Option.Rel _ ((c.get? q).or (view.get? q)) ((c'.get? q).or (view'.get? q)) :=
    bindsAlike_or hc hview q
  unfold View.restrict at h ⊢
  generalize (c.get? q).or (view.get? q) = bound at hbound h
  generalize (c'.get? q).or (view'.get? q) = bound' at hbound ⊢
  cases hbound with
  | none => cases h
  | some hbound =>
    dsimp only at h ⊢
    split at h
    next heq =>
      rw [if_pos]
      exact Key.compare_trans (compare_of_alike (alike_symm hbound))
        (Key.compare_trans heq (compare_of_alike hkey))
    next => cases h

/-- Searches for `root` do not tell equal subjects apart, amid equal couplings. -/
def Invariant (scene : Scene s) (root : PatternId) : Prop :=
  ∀ {plan : Plan} {key key' : Key} {view view' : View}, key.Alike scene.Equal key' →
    BindsAlike scene.Equal view.get? view'.get? →
    Concur (scene.searchFor root plan key view) (scene.searchFor root plan key' view')

/-- Where one attempt succeeds, another on an equal subject succeeds too or comes to a fault. -/
theorem ends_attempt (hw : scene.WellFormed) (ih : ∀ q < root, scene.Invariant q) {key key' : Key}
    {view view' : View} (hkey : key.Alike scene.Equal key')
    (hview : BindsAlike scene.Equal view.get? view'.get?) {c : Couplings}
    (hg : (scene.attempt plan root key view fun q nested key view =>
      scene.searchFor q.val nested key view).Gives c) :
    (scene.attempt plan root key' view' fun q nested key view =>
      scene.searchFor q.val nested key view).Ends fun _ => True := by
  obtain ⟨pr, pr₁, hgkey, hrestrict, -⟩ := gives_attempt.mp hg
  obtain ⟨hruns, hresiduals, hregions⟩ := gives_restrict.mp hrestrict
  obtain ⟨pr', hgkey', hpr⟩ := keyMirrors hw root hkey .start hgkey
  obtain ⟨pr₁', hruns', hpr₁⟩ := exists_gives_foldlM hpr.pending hpr hruns
    fun _ _ _ _ _ hrun hpr hg => exists_gives_keyRun hw hrun hpr hg
  have hresiduals' : ∀ r ∈ pr₁'.residuals,
      view'.restrict scene.forest pr₁'.couplings r.1 r.2 = .ok () := by
    intro r' hr'
    obtain ⟨r, hr, hrr', hkey⟩ := exists_mem_of_forall₂ hpr₁.residuals.flip hr'
    exact hrr' ▸ restrict_eq_ok hpr₁.couplings hview hkey (hresiduals r hr)
  have hregions' : ∀ region ∈ pr₁'.regions, evaluate plan (pr₁'.couplings :: view')
      (fun q nested key view => scene.searchFor q.val nested key view) region ≠ .ok false := by
    intro region' hregion'
    obtain ⟨region, hregion, halike⟩ := exists_mem_of_forall₂ hpr₁.regions.flip hregion'
    refine evaluate_ne_false halike.evaluator_eq
      (fun l hl => Multiset.exists_mem_of_rel_of_mem halike.links hl)
      (fun l' hl' => Multiset.exists_mem_of_rel_of_mem (Multiset.rel_flip.mpr halike.links) hl')
      (fun l _ l' _ hll' nested nested' hn hn' => ?_) (hregions region hregion)
    rw [← halike.scope_eq, ← halike.pattern_eq, ← hll'.slot_eq] at hn'
    obtain rfl := Option.some.inj (hn.symm.trans hn')
    rw [hll'.target]
    refine ih l'.target.val l'.target.isLt hll'.key fun q => ?_
    rw [View.get?_cons, View.get?_cons]
    exact bindsAlike_or hpr₁.couplings hview q
  exact ends_attempt_of_gives hgkey' hruns' hresiduals' hregions'

theorem invariant (hw : scene.WellFormed) (root : PatternId) : scene.Invariant root := by
  induction root using Nat.strongRecOn with
  | ind root ih =>
    have finds {plan : Plan} {key key' : Key} {view view' : View} {c : Couplings}
        (hkey : key.Alike scene.Equal key') (hview : BindsAlike scene.Equal view.get? view'.get?)
        (hc : scene.searchFor root plan key view = .ok (some c)) :
        scene.searchFor root plan key' view' ≠ .ok none := by
      rw [searchFor] at hc ⊢
      intro hnone
      exact Walk.not_ends_of_solve_eq_none hnone
        (ends_attempt hw ih hkey hview (Walk.gives_of_solve_eq_some hc))
    intro plan key key' view view' hkey hview c c' hc hc'
    cases c with
    | none =>
      cases c' with
      | none => rfl
      | some c' => exact (finds (alike_symm hkey) (bindsAlike_symm hview) hc' hc).elim
    | some c =>
      cases c' with
      | none => exact (finds hkey hview hc hc').elim
      | some c' => rfl

end Scene

namespace Rule

variable {name : String} {patterns : PatternSet s} {search : PatternId} {replace : Option PatternId}
  {mode : Mode} {r : Rule s}

/-- Of two equal subtrees a rule finds something in both or in neither, if it comes to an answer. -/
theorem isSome_find_eq (hs : s.WellFormed) (hps : patterns.WellFormed)
    (hr : Rule.make name patterns search replace mode = .ok r) {f : Forest s} (hf : f.WellShaped)
    {a b : NodeId} (ha : a < f.size) (hb : b < f.size) (hab : f.compare a b = .eq)
    {c d : Option Couplings} (hc : r.find f a = .ok c) (hd : r.find f b = .ok d) :
    c.isSome = d.isSome := by
  obtain ⟨hps', -⟩ := exists_root_of_make hps hr
  have hw : Scene.WellFormed ⟨f, r.patterns, f.size⟩ := ⟨hs, hf, hps'⟩
  have hkey : Key.Alike (Scene.Equal ⟨f, r.patterns, f.size⟩) (.node a) (.node b) :=
    .single (.some ⟨ha, hb, hab⟩)
  exact Scene.invariant hw _ hkey (fun q => .none) c d hc hd

/-- Lists in which the order does not count. -/
def bags : Schema :=
  (Schema.base.push ⟨"Bag", some 0, [⟨"items", .collection⟩], false⟩ Schema.nodeKind_lt_base).enter
    "Bag" 1

/-- Two bags that hold an empty bag and a leaf, each in an order of its own. -/
def equalBags : Forest bags :=
  ((((Forest.empty.push ⟨0, none, []⟩).push ⟨1, none, [.collection []]⟩).push ⟨0, none, []⟩).push
    ⟨1, none, [.collection [0, 1]]⟩).push ⟨1, none, [.collection [1, 2]]⟩

/-- A bag of two, one an empty bag and the other anything else. -/
def unlikeTwo : PatternSet bags :=
  ((PatternSet.empty.push ⟨1, .standard none [.collection []]⟩).push ⟨0, .notMatch 0⟩).push
    ⟨1, .standard none [.collection [1, 0]]⟩

def findUnlike : Rule bags where
  name := "unlike"
  patterns := unlikeTwo.push ⟨0, .overlay 2 2⟩
  search := 2
  replace := none
  mode := .compare
  plan := RulePlan.make (unlikeTwo.push ⟨0, .overlay 2 2⟩) 3 []

theorem define_bags : Schema.define "Bag" 0 [⟨"items", .collection⟩] false .base = .ok 1 bags :=
  Schema.define_of_extendLayout (by decide) Schema.nodeKind_lt_base rfl

theorem wellFormed_unlikeTwo : unlikeTwo.WellFormed :=
  ((PatternSet.wellFormed_empty.insert
    (rfl : PatternSet.insert _ 1 (.standard none [.collection []]) = .ok _)).insert
    (rfl : PatternSet.insert _ 0 (.notMatch 0) = .ok _)).insert
    (rfl : PatternSet.insert _ 1 (.standard none [.collection [1, 0]]) = .ok _)

theorem wellShaped_equalBags : equalBags.WellShaped :=
  ((((Forest.wellShaped_empty.push (by rfl)).push (by rfl)).push (by rfl)).push (by rfl)).push
    (by rfl)

/-- What is found in the one bag is at other places in the other. -/
theorem isSome_find_equalBags :
    equalBags.compare 3 4 = .eq ∧
      findUnlike.find equalBags 3 =
        .ok (some ⟨[(0, .node 1), (1, .node 0), (2, .node 3), (3, .node 3)], []⟩) ∧
      ∃ d, findUnlike.find equalBags 4 = .ok d ∧ d.isSome = true := by
  have hcompare : equalBags.compare 3 4 = .eq := by decide +kernel
  have hc : findUnlike.find equalBags 3 =
      .ok (some ⟨[(0, .node 1), (1, .node 0), (2, .node 3), (3, .node 3)], []⟩) := by
    decide +kernel
  have hd : findUnlike.find equalBags 4 =
      .ok (some ⟨[(0, .node 1), (1, .node 2), (2, .node 4), (3, .node 4)], []⟩) := by
    decide +kernel
  have hmake : Rule.make "unlike" unlikeTwo 2 none .compare = .ok findUnlike := rfl
  refine ⟨hcompare, hc, _, hd, ?_⟩
  exact (isSome_find_eq (Schema.wellFormed_base.define define_bags) wellFormed_unlikeTwo hmake
    wellShaped_equalBags (by decide) (by decide) hcompare hc hd).symm

end Rule

end Espalier
