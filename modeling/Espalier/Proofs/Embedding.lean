import Espalier.Proofs.Binding

/-!
# Searches amid further patterns

What a search does depends on the patterns below its root only.  Two pattern sets that agree below a
bound have, for a root below it, plans with the same keyers, and searches that go through the same
attempts: whatever else is keyed or coupled around them does not show.
-/

namespace Espalier

variable {s : Schema}

/-! ## Patterns that agree -/

/-- The patterns before `b` are the same. -/
def PatternSet.AgreeBelow (b : Nat) (ps ps' : PatternSet s) : Prop :=
  ∀ q < b, ps'.get q = ps.get q

namespace PatternSet.AgreeBelow

variable {b : Nat} {ps ps' : PatternSet s} {p : PatternId}

theorem isStar_eq (h : ps.AgreeBelow b ps') (hp : p < b) : ps'.isStar p = ps.isStar p := by
  rw [isStar, h p hp]
  rfl

theorem pattern_eq (h : ps.AgreeBelow b ps') (hp : p < b) : ps'.pattern p = ps.pattern p :=
  pattern_eq_of_get_eq (h p hp)

theorem isStar_children (h : ps.AgreeBelow b ps') (hp : p < b) :
    (fun q : Fin p => ps'.isStar q.val) = fun q => ps.isStar q.val := by
  funext q
  exact h.isStar_eq (Nat.lt_trans q.isLt hp)

theorem query_eq (h : ps.AgreeBelow b ps') (hp : p < b) : ps'.query p = ps.query p := by
  rw [query, query, h.pattern_eq hp, h.isStar_children hp]

theorem decide_eq (h : ps.AgreeBelow b ps') (hp : p < b) (f : Forest s) (watermark : Nat)
    (key : Key) :
    Scene.decide ⟨f, ps', watermark⟩ p key = Scene.decide ⟨f, ps, watermark⟩ p key := by
  have hnode (x : NodeId) :
      Scene.decideNode ⟨f, ps', watermark⟩ p x = Scene.decideNode ⟨f, ps, watermark⟩ p x := by
    simp only [Scene.decideNode, h.pattern_eq hp, h.isStar_children hp]
  have hlinks :
      Scene.decideLinks ⟨f, ps', watermark⟩ p key = Scene.decideLinks ⟨f, ps, watermark⟩ p key := by
    simp only [Scene.decideLinks, h.pattern_eq hp, hnode]
  simp only [Scene.decide, h.query_eq hp, hlinks]

end PatternSet.AgreeBelow

/-! ## Elections that agree -/

/-- Links that are renamed one to one, those that leave patterns before `b` to themselves. -/
structure Relabels (b : Nat) (Λ : LinkId → LinkId → Prop) : Prop where
  unique : ∀ {l l' k k'}, Λ l l' → Λ k k' → (l = k ↔ l' = k')
  child : ∀ {p} slot, p < b → Λ (.child p slot) (.child p slot)

theorem relabels_eq (b : Nat) : Relabels b Eq where
  unique := by
    rintro l _ k _ rfl rfl
    rfl
  child _ _ := rfl

/-- The same link out of a scope. -/
structure Outlink.Agree (b : Nat) {n n' : Nat} (o : Outlink n) (o' : Outlink n') : Prop where
  pattern_eq : o'.pattern = o.pattern
  slot_eq : o'.slot = o.slot
  target_eq : o'.target.val = o.target.val
  pattern_lt : o.pattern < b
  target_lt : o.target.val < b

/-- Two elections have come to the same, as far as patterns before `b` are concerned. -/
structure Election.Agree (b : Nat) (Λ : LinkId → LinkId → Prop) {n n' : Nat} (e : Election n)
    (e' : Election n') : Prop where
  keyers : ∀ l l', Λ l l' → (l ∈ e.keyers ↔ l' ∈ e'.keyers)
  keyed : ∀ q < b, q ∈ e.keyed ↔ q ∈ e'.keyed
  deferred : List.Forall₂ (Outlink.Agree b) e.deferred e'.deferred
  abnormal : List.Forall₂ (Outlink.Agree b) e.abnormal e'.abnormal

namespace Election.Agree

variable {b n n' m : Nat} {Λ : LinkId → LinkId → Prop} {e : Election n} {e' : Election n'}
  {ps ps' : PatternSet s}

theorem sortLinks {d : Bool} {p : Fin (m + 1)} (hp : p.val < b) (h : m ≤ n) (h' : m ≤ n')
    (ls : List (Link (Fin p.val))) (he : Agree b Λ e e') :
    Agree b Λ (Election.sortLinks d p h ls e).1 (Election.sortLinks d p h' ls e').1 ∧
      (Election.sortLinks d p h ls e).2 = (Election.sortLinks d p h' ls e').2 := by
  induction ls generalizing e e' with
  | nil => exact ⟨he, rfl⟩
  | cons l ls ih =>
    have hout : Outlink.Agree b
        (⟨p.val, l.slot, ⟨l.target.val, Nat.lt_of_lt_of_le (Nat.lt_of_lt_of_le l.target.isLt
          (Nat.le_of_lt_succ p.isLt)) h⟩⟩ : Outlink n)
        (⟨p.val, l.slot, ⟨l.target.val, Nat.lt_of_lt_of_le (Nat.lt_of_lt_of_le l.target.isLt
          (Nat.le_of_lt_succ p.isLt)) h'⟩⟩ : Outlink n') :=
      ⟨rfl, rfl, rfl, hp, Nat.lt_trans l.target.isLt hp⟩
    rw [Election.sortLinks, Election.sortLinks]
    split
    next =>
      exact ih ⟨he.keyers, he.keyed, he.deferred, List.rel_append he.abnormal (.cons hout .nil)⟩
    next =>
      split
      next =>
        exact ih ⟨he.keyers, he.keyed, List.rel_append he.deferred (.cons hout .nil), he.abnormal⟩
      next =>
        obtain ⟨hagree, hnext⟩ := ih he
        exact ⟨hagree, congrArg (List.cons _) hnext⟩

/-- Links of one level to the same targets. -/
def Level (b : Nat) (Λ : LinkId → LinkId → Prop) (links links' : List (LinkId × Fin m)) : Prop :=
  List.Forall₂ (fun x x' => Λ x.1 x'.1 ∧ x.2 = x'.2 ∧ x.2.val < b) links links'

theorem elect (hΛ : Relabels b Λ) {l l' : LinkId} (hl : Λ l l') (p : PatternId)
    (he : Agree b Λ e e') :
    Agree b Λ { e with keyers := e.keyers ++ [l], keyed := e.keyed ++ [p] }
      { e' with keyers := e'.keyers ++ [l'], keyed := e'.keyed ++ [p] } where
  keyers k k' hk := by
    simp only [List.mem_append, List.mem_singleton, he.keyers k k' hk, hΛ.unique hk hl]
  keyed q hq := by simp only [List.mem_append, he.keyed q hq]
  deferred := he.deferred
  abnormal := he.abnormal

theorem level_sortLinks (hΛ : Relabels b Λ) {d : Bool} {p : Fin (m + 1)} (hp : p.val < b)
    (h : m ≤ n) (ls : List (Link (Fin p.val))) :
    Level b Λ (Election.sortLinks d p h ls e).2 (Election.sortLinks d p h ls e).2 := by
  refine List.forall₂_same.mpr fun x hx => ?_
  have hmem : (x.1, x.2.val) ∈ flat (Election.sortLinks d p h ls e).2 :=
    List.mem_map.mpr ⟨x, hx, rfl⟩
  obtain ⟨-, l, -, -, hlink, htarget⟩ := mem_next_sortLinks.mp hmem
  rw [hlink, htarget]
  exact ⟨hΛ.child _ hp, rfl, Nat.lt_trans l.target.isLt hp⟩

theorem level (hps : ps.AgreeBelow b ps') (hΛ : Relabels b Λ) (h : m ≤ n) (h' : m ≤ n')
    {links links' : List (LinkId × Fin (m + 1))} (hlinks : Level b Λ links links')
    (he : Agree b Λ e e') :
    Agree b Λ (Election.level ps h links e).1 (Election.level ps' h' links' e').1 ∧
      Level b Λ (Election.level ps h links e).2 (Election.level ps' h' links' e').2 := by
  induction hlinks generalizing e e' with
  | nil => exact ⟨he, .nil⟩
  | @cons x x' links links' hx _ ih =>
    obtain ⟨l, p⟩ := x
    obtain ⟨l', p'⟩ := x'
    obtain ⟨hl, heq, hp⟩ := hx
    obtain rfl : p = p' := heq
    rw [Election.level, Election.level]
    by_cases hmem : p.val ∈ e.keyed
    · rw [if_pos hmem, if_pos ((he.keyed p.val hp).mp hmem)]
      exact ih he
    · rw [if_neg hmem, if_neg fun h => hmem ((he.keyed p.val hp).mpr h), hps.query_eq hp,
        hps p.val hp]
      obtain ⟨hsorted, hnext⟩ := (he.elect hΛ hl p.val).sortLinks
        (d := (ps.get p.val).agent.isDisjunction) hp h h' (ps.query p.val).links
      obtain ⟨hrest, hmore⟩ := ih hsorted
      refine ⟨hrest, List.rel_append ?_ hmore⟩
      rw [← hnext]
      exact level_sortLinks hΛ hp h (ps.query p.val).links

theorem levels (hps : ps.AgreeBelow b ps') (hΛ : Relabels b Λ) (h : m ≤ n + 1) (h' : m ≤ n' + 1)
    {links links' : List (LinkId × Fin m)} (hlinks : Level b Λ links links') (he : Agree b Λ e e') :
    Agree b Λ (Election.levels ps m h links e) (Election.levels ps' m h' links' e') := by
  induction m generalizing e e' with
  | zero => exact he
  | succ m ih =>
    obtain ⟨hagree, hnext⟩ :=
      level hps hΛ (Nat.le_of_succ_le_succ h) (Nat.le_of_succ_le_succ h') hlinks he
    exact ih (Nat.le_of_succ_le h) (Nat.le_of_succ_le h') hnext hagree

theorem run (hps : ps.AgreeBelow b ps') (hΛ : Relabels b Λ) {keyed keyed' : List PatternId}
    (hkeyed : ∀ q < b, q ∈ keyed ↔ q ∈ keyed') {l l' : LinkId} (hl : Λ l l') {seed : PatternId}
    (hseed : seed < b) :
    Agree b Λ (Election.run ps keyed l seed) (Election.run ps' keyed' l' seed) :=
  levels hps hΛ _ _ (.cons ⟨hl, rfl, hseed⟩ .nil) ⟨by simp, hkeyed, .nil, .nil⟩

end Election.Agree

/-! ## Plans that agree -/

/-- The scopes that an election makes, from `index` on. -/
def Plan.laid (ps : PatternSet s) {n : Nat} (e : Election n) (index : Nat) : List Scope :=
  let r := e.deferred.foldl
    (fun (disjuncts, below) l =>
      (disjuncts ++ [((l.pattern, l.slot), index + 1 + below.length)],
        below ++ fill ps e.keyed (.child l.pattern l.slot) l.target.val (index + 1 + below.length)))
    (([] : List ((PatternId × Nat) × Nat)), ([] : List Scope))
  .mk e.keyers e.keyed r.1
    (e.abnormal.map fun l => ((l.pattern, l.slot), amid ps e.keyed l.target.val)) :: r.2

theorem Plan.fill_eq_laid (ps : PatternSet s) (keyed : List PatternId) (link : LinkId)
    (seed : PatternId) (index : Nat) :
    fill ps keyed link seed index = laid ps (Election.run ps keyed link seed) index := by
  rw [fill]
  rfl

/-- The plans of one region, where the same patterns before `b` are keyed around it. -/
def Plan.AgreeNested (b : Nat) (ps ps' : PatternSet s) (plan plan' : Plan) : Prop :=
  ∃ q < b, ∃ keyed keyed', (∀ r < b, r ∈ keyed ↔ r ∈ keyed') ∧
    plan = amid ps keyed q ∧ plan' = amid ps' keyed' q

/-- What an attempt reads of two scopes is the same. -/
structure Scope.Agree (b : Nat) (Λ : LinkId → LinkId → Prop) (ps ps' : PatternSet s)
    (scope scope' : Scope) : Prop where
  isKeyer : ∀ l l', Λ l l' → scope'.isKeyer l' = scope.isKeyer l
  disjunct? : ∀ p slot, scope'.disjunct? p slot = scope.disjunct? p slot
  nested? : ∀ p slot, Option.Rel (Plan.AgreeNested b ps ps') (scope.nested? p slot)
    (scope'.nested? p slot)

theorem lookup_rel {α β γ : Type} [BEq α] [LawfulBEq α] {R : β → γ → Prop} {xs : List (α × β)}
    {ys : List (α × γ)} (h : List.Forall₂ (fun x y => y.1 = x.1 ∧ R x.2 y.2) xs ys) (a : α) :
    Option.Rel R (xs.lookup a) (ys.lookup a) := by
  induction h with
  | nil => exact .none
  | @cons x y _ _ hxy _ ih =>
    rw [List.lookup_cons, List.lookup_cons, hxy.1]
    split
    · exact .some hxy.2
    · exact ih

theorem foldl_disjuncts_agree {b n n' : Nat} {R : Scope → Scope → Prop}
    {g : Outlink n → Nat → List Scope} {g' : Outlink n' → Nat → List Scope} (index : Nat)
    {ls : List (Outlink n)} {ls' : List (Outlink n')} (hls : List.Forall₂ (Outlink.Agree b) ls ls')
    (hg : ∀ l ∈ ls, ∀ l' i, Outlink.Agree b l l' → List.Forall₂ R (g l i) (g' l' i))
    (disjuncts : List ((PatternId × Nat) × Nat)) {below below' : List Scope}
    (hbelow : List.Forall₂ R below below') :
    let r := ls.foldl (fun (disjuncts, below) l =>
      (disjuncts ++ [((l.pattern, l.slot), index + 1 + below.length)],
        below ++ g l (index + 1 + below.length))) (disjuncts, below)
    let r' := ls'.foldl (fun (disjuncts, below) l =>
      (disjuncts ++ [((l.pattern, l.slot), index + 1 + below.length)],
        below ++ g' l (index + 1 + below.length))) (disjuncts, below')
    r'.1 = r.1 ∧ List.Forall₂ R r.2 r'.2 := by
  induction hls generalizing disjuncts below below' with
  | nil => exact ⟨rfl, hbelow⟩
  | @cons l l' ls ls' hl _ ih =>
    rw [List.forall_mem_cons] at hg
    rw [List.foldl_cons, List.foldl_cons]
    dsimp only
    rw [hl.pattern_eq, hl.slot_eq, ← hbelow.length_eq]
    exact ih hg.2 _ (List.rel_append hbelow (hg.1 l' _ hl))

namespace Plan

variable {b n n' : Nat} {Λ : LinkId → LinkId → Prop} {ps ps' : PatternSet s}

theorem laid_agree {e : Election n} {e' : Election n'} (he : e.Agree b Λ e') (index : Nat)
    (hfill : ∀ o ∈ e.deferred, ∀ (o' : Outlink n') i,
      o.Agree b o' → List.Forall₂ (Scope.Agree b Λ ps ps')
      (fill ps e.keyed (.child o.pattern o.slot) o.target.val i)
      (fill ps' e'.keyed (.child o'.pattern o'.slot) o'.target.val i)) :
    List.Forall₂ (Scope.Agree b Λ ps ps') (laid ps e index) (laid ps' e' index) := by
  obtain ⟨hdisjuncts, hbelow⟩ := foldl_disjuncts_agree index he.deferred hfill [] .nil
  refine .cons ⟨fun l l' hl => ?_, fun p slot => ?_, fun p slot => ?_⟩ hbelow
  · rw [Bool.eq_iff_iff, Scope.isKeyer, Scope.isKeyer, List.contains_iff_mem, List.contains_iff_mem]
    exact (he.keyers l l' hl).symm
  · exact congrArg (List.lookup (p, slot)) hdisjuncts
  · refine lookup_rel (List.forall₂_map_left_iff.mpr (List.forall₂_map_right_iff.mpr ?_)) (p, slot)
    refine he.abnormal.imp fun o o' ho => ⟨by rw [ho.pattern_eq, ho.slot_eq], ?_⟩
    exact ⟨o.target.val, ho.target_lt, e.keyed, e'.keyed, he.keyed, rfl, by rw [ho.target_eq]⟩

theorem fill_agree (hps : ps.AgreeBelow b ps') (hΛ : Relabels b Λ) {keyed keyed' : List PatternId}
    (hkeyed : ∀ q < b, q ∈ keyed ↔ q ∈ keyed') {link link' : LinkId} (hlink : Λ link link')
    {seed : PatternId} (hseed : seed < b) (index : Nat) :
    List.Forall₂ (Scope.Agree b Λ ps ps') (fill ps keyed link seed index)
      (fill ps' keyed' link' seed index) := by
  induction seed using Nat.strongRecOn generalizing keyed keyed' link link' index with
  | ind seed ih =>
    rw [fill_eq_laid, fill_eq_laid]
    have he := Election.Agree.run hps hΛ hkeyed hlink hseed
    refine laid_agree he index fun o _ o' i ho => ?_
    rw [ho.pattern_eq, ho.slot_eq, ho.target_eq]
    exact ih o.target.val o.target.isLt he.keyed (hΛ.child _ ho.pattern_lt) ho.target_lt i

/-- What an attempt reads of two plans is the same. -/
def Agree (b : Nat) (Λ : LinkId → LinkId → Prop) (ps ps' : PatternSet s) (plan plan' : Plan) :
    Prop :=
  ∀ i, Scope.Agree b Λ ps ps' (plan.scope i) (plan'.scope i)

theorem agree_of_forall₂ {plan plan' : Plan}
    (h : List.Forall₂ (Scope.Agree b Λ ps ps') plan.scopes plan'.scopes) :
    plan.Agree b Λ ps ps' plan' := by
  intro i
  have hempty : Scope.Agree b Λ ps ps' .empty .empty :=
    ⟨fun _ _ _ => rfl, fun _ _ => rfl, fun _ _ => .none⟩
  obtain ⟨hlen, hrel⟩ := List.forall₂_iff_get.mp h
  rw [scope, scope]
  by_cases hi : i < plan.scopes.length
  · have := hrel i hi (hlen ▸ hi)
    simpa [List.getElem?_eq_getElem hi,
      List.getElem?_eq_getElem (hlen ▸ hi : i < plan'.scopes.length)] using this
  · rw [List.getElem?_eq_none (Nat.le_of_not_lt hi),
      List.getElem?_eq_none (hlen ▸ Nat.le_of_not_lt hi : plan'.scopes.length ≤ i)]
    exact hempty

theorem AgreeNested.agree {plan plan' : Plan} (hps : ps.AgreeBelow b ps')
    (h : plan.AgreeNested b ps ps' plan') : plan.Agree b Eq ps ps' plan' := by
  obtain ⟨q, hq, keyed, keyed', hkeyed, rfl, rfl⟩ := h
  exact agree_of_forall₂ (fill_agree hps (relabels_eq b) hkeyed rfl hq 0)

end Plan

/-! ## Attempts that agree -/

/-- The same star run. -/
structure Pending.Agree (b : Nat) {n n' : Nat} (run : Pending n) (run' : Pending n') : Prop where
  scope_eq : run'.scope = run.scope
  link_eq : run'.link = run.link
  link_lt : ∃ p slot, run.link = .child p slot ∧ p < b
  target_eq : run'.target.val = run.target.val
  target_lt : run.target.val < b
  key_eq : run'.key = run.key

/-- The same region. -/
structure Region.Agree (b : Nat) {n n' : Nat} (region : Region n) (region' : Region n') : Prop where
  scope_eq : region'.scope = region.scope
  pattern_eq : region'.pattern = region.pattern
  evaluator_eq : region'.evaluator = region.evaluator
  links : List.Forall₂ (fun l l' => l'.slot = l.slot ∧ l'.target.val = l.target.val ∧
    l.target.val < b ∧ l'.key = l.key) region.links region'.links

/-- The same couplings but for those of `more`. -/
structure Couplings.Agree (more c c' : Couplings) : Prop where
  keys : c'.keys = c.keys ++ more.keys
  paths : c'.paths = c.paths ++ more.paths

/-- Two attempts have come to the same, but for the couplings of `more` that the second one started
with. -/
structure Progress.Agree (b : Nat) (more : Couplings) {n n' : Nat} (pr : Progress n)
    (pr' : Progress n') : Prop where
  couplings : more.Agree pr.couplings pr'.couplings
  residuals : pr'.residuals = pr.residuals
  residuals_lt : ∀ r ∈ pr.residuals, r.1 < b
  pending : List.Forall₂ (Pending.Agree b) pr.pending pr'.pending
  regions : List.Forall₂ (Region.Agree b) pr.regions pr'.regions

theorem Couplings.Agree.get?_eq {b : Nat} {more c c' : Couplings} (h : more.Agree c c')
    (hmore : ∀ q < b, more.get? q = none) {q : PatternId} (hq : q < b) : c'.get? q = c.get? q := by
  have hq := hmore q hq
  rw [get?] at hq
  rw [get?, get?, h.keys, List.lookup_append, hq, Option.or_none]

namespace Progress.Agree

variable {b n n' : Nat} {more : Couplings} {pr : Progress n} {pr' : Progress n'} {p : PatternId}

theorem addResidual (h : pr.Agree b more pr') (hp : p < b) (key : Key) :
    (pr.addResidual p key).Agree b more (pr'.addResidual p key) where
  couplings := h.couplings
  residuals := congrArg (· ++ [(p, key)]) h.residuals
  residuals_lt r hr := by
    rcases List.mem_append.mp hr with hr | hr
    · exact h.residuals_lt r hr
    · exact List.mem_singleton.mp hr ▸ hp
  pending := h.pending
  regions := h.regions

theorem addPending (h : pr.Agree b more pr') {run : Pending n} {run' : Pending n'}
    (hrun : run.Agree b run') : (pr.addPending run).Agree b more (pr'.addPending run') where
  __ := h
  pending := List.rel_append h.pending (.cons hrun .nil)

theorem addRegion (h : pr.Agree b more pr') {region : Region n} {region' : Region n'}
    (hregion : region.Agree b region') :
    (pr.addRegion region).Agree b more (pr'.addRegion region') where
  __ := h
  regions := List.rel_append h.regions (.cons hregion .nil)

theorem coupled (h : pr.Agree b more pr') (p : PatternId) (key : Key) :
    (pr.coupled p key).Agree b more (pr'.coupled p key) where
  __ := h
  couplings := ⟨congrArg ((p, key) :: ·) h.couplings.keys, h.couplings.paths⟩

theorem recordPath (h : pr.Agree b more pr') (p : PatternId) (path : Option (List Site)) :
    (pr.recordPath p path).Agree b more (pr'.recordPath p path) := by
  cases path with
  | none => exact h
  | some path =>
    exact ⟨⟨h.couplings.keys, congrArg ((p, path) :: ·) h.couplings.paths⟩, h.residuals,
      h.residuals_lt, h.pending, h.regions⟩

theorem links_castLE (hp : p < b) (h : p ≤ n) (h' : p ≤ n') (links : List (DecidedLink (Fin p))) :
    List.Forall₂ (fun (l : DecidedLink (Fin n)) (l' : DecidedLink (Fin n')) => l'.slot = l.slot ∧
      l'.target.val = l.target.val ∧ l.target.val < b ∧ l'.key = l.key)
      (links.map (·.map (·.castLE h))) (links.map (·.map (·.castLE h'))) := by
  rw [List.forall₂_map_left_iff, List.forall₂_map_right_iff]
  exact List.forall₂_same.mpr fun l _ => ⟨rfl, rfl, Nat.lt_trans l.target.isLt hp, rfl⟩

theorem close (hpr : pr.Agree b more pr') (hp : p < b) (h : p ≤ n) (h' : p ≤ n') (scope : Nat)
    (d : Decided (Fin p)) : (pr.close h scope d).Agree b more (pr'.close h' scope d) := by
  rw [Progress.close, Progress.close]
  cases d.evaluator with
  | none => exact hpr
  | some evaluator =>
    dsimp only
    split
    · exact hpr
    · exact hpr.addRegion ⟨rfl, rfl, rfl, links_castLE hp h h' _⟩

end Progress.Agree

namespace Scene

variable {b root root' : Nat} {Λ : LinkId → LinkId → Prop} {ps ps' : PatternSet s}
  {plan plan' : Plan} {more : Couplings} {f : Forest s} {watermark : Nat} {pr : Progress root}
  {pr' : Progress root'} {p : PatternId}

theorem mirrors_couple (hmore : ∀ q < b, more.get? q = none) (hp : p < b) (key : Key)
    (hpr : pr.Agree b more pr') :
    Attempt.Mirrors (Progress.Agree b more) (pr.couple p key) (pr'.couple p key) := by
  have hget := hpr.couplings.get?_eq hmore hp
  rw [Progress.couple, Progress.couple, Couplings.couple, Couplings.couple, hget]
  by_cases hsome : (pr.couplings.get? p).isSome = true
  · rw [if_pos hsome, if_pos hsome]
    exact Attempt.mirrors_fault _
  · rw [if_neg hsome, if_neg hsome]
    exact Attempt.mirrors_pure (hpr.coupled p key)

theorem mirrors_key (hps : ps.AgreeBelow b ps') (hΛ : Relabels b Λ)
    (hmore : ∀ q < b, more.get? q = none) (hplan : plan.Agree b Λ ps ps' plan') (hp : p < b)
    {h : p ≤ root} {h' : p ≤ root'} {scope : Nat}
    {link link' : LinkId} (hlink : Λ link link') {subject : Key} (hpr : pr.Agree b more pr') :
    Attempt.Mirrors (Progress.Agree b more)
      (key ⟨f, ps, watermark⟩ plan root p h scope link subject pr)
      (key ⟨f, ps', watermark⟩ plan' root' p h' scope link' subject pr') := by
  induction p using Nat.strongRecOn generalizing scope link link' subject pr pr' with
  | ind p ih =>
    have hkeyer := (hplan scope).isKeyer link link' hlink
    cases hk : (plan.scope scope).isKeyer link with
    | false =>
      rw [key_of_not_isKeyer hk, key_of_not_isKeyer (hkeyer.trans hk)]
      exact Attempt.mirrors_pure (hpr.addResidual hp subject)
    | true =>
      rw [key_of_isKeyer hk, key_of_isKeyer (hkeyer.trans hk), hps.decide_eq hp]
      refine Attempt.mirrors_bind (mirrors_couple hmore hp subject hpr) fun pr₁ pr₁' hpr₁ => ?_
      refine Attempt.mirrors_bind (Attempt.mirrors_refl _) ?_
      rintro d _ rfl
      refine Attempt.mirrors_bind (Attempt.mirrors_foldlM (List.forall₂_same.mpr fun l _ => rfl)
        (hpr₁.recordPath p d.path) ?_) fun pr₂ pr₂' hpr₂ =>
          Attempt.mirrors_pure (hpr₂.close hp h h' scope d)
      rintro pr₂ pr₂' l _ hpr₂ rfl
      rw [follow, follow, (hplan scope).disjunct?]
      cases l.kind with
      | normal =>
        exact ih l.target.val l.target.isLt (Nat.lt_trans l.target.isLt hp) (hΛ.child _ hp) hpr₂
      | multiplicity =>
        refine Attempt.mirrors_pure (hpr₂.addPending ⟨rfl, rfl, ⟨p, l.slot, rfl, hp⟩, rfl, ?_, rfl⟩)
        exact Nat.lt_trans l.target.isLt hp
      | abnormal => exact Attempt.mirrors_pure hpr₂

theorem mirrors_keyRun (hps : ps.AgreeBelow b ps') (hΛ : Relabels b Λ)
    (hmore : ∀ q < b, more.get? q = none) (hplan : plan.Agree b Λ ps ps' plan') {run : Pending root}
    {run' : Pending root'} (hrun : run.Agree b run') (hpr : pr.Agree b more pr') :
    Attempt.Mirrors (Progress.Agree b more) (keyRun ⟨f, ps, watermark⟩ plan pr run)
      (keyRun ⟨f, ps', watermark⟩ plan' pr' run') := by
  obtain ⟨scope, link, ⟨target, htarget⟩, subject⟩ := run
  obtain ⟨scope', link', ⟨target', htarget'⟩, subject'⟩ := run'
  obtain ⟨hscope, hlink, ⟨p, slot, hchild, hp⟩, heq, hlt, hkey⟩ := hrun
  dsimp only at hscope hlink hchild heq hlt hkey
  subst hscope hlink heq hkey hchild
  have hkeyer := (hplan scope').isKeyer _ _ (hΛ.child slot hp)
  cases hk : (plan.scope scope').isKeyer (.child p slot) with
  | false =>
    rw [keyRun, keyRun, hkeyer, hk]
    exact Attempt.mirrors_pure (hpr.addResidual hlt subject')
  | true =>
    rw [keyRun_of_isKeyer hk, keyRun_of_isKeyer (hkeyer.trans hk), hps.decide_eq hlt]
    refine Attempt.mirrors_bind (mirrors_couple hmore hlt subject' hpr) fun pr₁ pr₁' hpr₁ => ?_
    refine Attempt.mirrors_bind (Attempt.mirrors_refl _) ?_
    rintro d _ rfl
    refine Attempt.mirrors_pure ?_
    rw [Progress.closeRun, Progress.closeRun]
    cases d.evaluator with
    | none => exact hpr₁
    | some evaluator =>
      exact hpr₁.addRegion ⟨rfl, rfl, rfl, Progress.Agree.links_castLE hlt _ _ _⟩

/-- Searches for patterns before `b` come to the same with either set of patterns. -/
def InnerAgree (b : Nat) (ps ps' : PatternSet s)
    (inner : Fin root → Plan → Key → View → Except Fault (Option Couplings))
    (inner' : Fin root' → Plan → Key → View → Except Fault (Option Couplings)) : Prop :=
  ∀ (t : Fin root) (t' : Fin root') (plan plan' : Plan) (key : Key) (view view' : View),
    t'.val = t.val → t.val < b → plan.Agree b Eq ps ps' plan' →
    (∀ q < b, view'.get? q = view.get? q) → inner' t' plan' key view' = inner t plan key view

section Restrict

variable {inner : Fin root → Plan → Key → View → Except Fault (Option Couplings)}
  {inner' : Fin root' → Plan → Key → View → Except Fault (Option Couplings)} {view view' : View}

theorem allMatch_eq (hps : ps.AgreeBelow b ps') (hplan : plan.Agree b Λ ps ps' plan')
    (hinner : InnerAgree b ps ps' inner inner') (hview : ∀ q < b, view'.get? q = view.get? q)
    (scope : Nat) (p : PatternId) {links : List (DecidedLink (Fin root))}
    {links' : List (DecidedLink (Fin root'))}
    (hlinks : List.Forall₂ (fun l l' => l'.slot = l.slot ∧ l'.target.val = l.target.val ∧
      l.target.val < b ∧ l'.key = l.key) links links') :
    allMatch plan' view' inner' scope p links' = allMatch plan view inner scope p links := by
  induction hlinks with
  | nil => rfl
  | @cons l l' _ _ hl _ ih =>
    obtain ⟨hslot, htarget, hlt, hkey⟩ := hl
    have hnested := (hplan scope).nested? p l.slot
    rw [allMatch, allMatch, hslot, ih]
    generalize (plan.scope scope).nested? p l.slot = nested at hnested
    generalize (plan'.scope scope).nested? p l.slot = nested' at hnested
    cases hnested with
    | none => rfl
    | some hnested =>
      dsimp only
      rw [hinner l.target l'.target _ _ _ view view' htarget hlt (hnested.agree hps) hview, hkey]

theorem mirrors_restrict (hps : ps.AgreeBelow b ps') (hΛ : Relabels b Λ)
    (hmore : ∀ q < b, more.get? q = none) (hplan : plan.Agree b Λ ps ps' plan')
    (hinner : InnerAgree b ps ps' inner inner') (hview : ∀ q < b, view'.get? q = view.get? q)
    (hpr : pr.Agree b more pr') :
    Attempt.Mirrors (Progress.Agree b more) (restrict ⟨f, ps, watermark⟩ plan view inner pr)
      (restrict ⟨f, ps', watermark⟩ plan' view' inner' pr') := by
  refine Attempt.mirrors_bind (Attempt.mirrors_foldlM hpr.pending hpr fun _ _ _ _ hpr hrun =>
    mirrors_keyRun hps hΛ hmore hplan hrun hpr) fun pr pr' hpr => ?_
  have hget {q} (hq : q < b) : pr'.couplings.get? q = pr.couplings.get? q :=
    hpr.couplings.get?_eq hmore hq
  have hresiduals : List.Forall₂ (fun r r' => r = r' ∧ r.1 < b) pr.residuals pr'.residuals := by
    rw [hpr.residuals]
    exact List.forall₂_same.mpr fun r hr => ⟨rfl, hpr.residuals_lt r hr⟩
  refine Attempt.mirrors_bind (Attempt.mirrors_forM hresiduals ?_) fun _ _ _ => ?_
  · rintro r _ ⟨rfl, hlt⟩
    have hsame : view'.restrict f pr'.couplings r.1 r.2 = view.restrict f pr.couplings r.1 r.2 := by
      rw [View.restrict, View.restrict, hget hlt, hview _ hlt]
    dsimp only
    rw [hsame]
    exact Attempt.mirrors_refl _
  refine Attempt.mirrors_bind (Attempt.mirrors_forM hpr.regions ?_) fun _ _ _ =>
    Attempt.mirrors_pure hpr
  intro region region' hregion
  have hviews (q) (hq : q < b) :
      View.get? (pr'.couplings :: view') q = View.get? (pr.couplings :: view) q := by
    rw [View.get?_cons, View.get?_cons, hget hq, hview q hq]
  have hsame : evaluate plan' (pr'.couplings :: view') inner' region' =
      evaluate plan (pr.couplings :: view) inner region := by
    rw [evaluate, evaluate, hregion.scope_eq, hregion.pattern_eq, hregion.evaluator_eq,
      allMatch_eq hps hplan hinner hviews _ _ hregion.links]
  rw [hsame]
  exact Attempt.mirrors_refl _

end Restrict

/-- A search for a pattern before `b` comes to the same, whatever is around it. -/
theorem searchFor_eq (hps : ps.AgreeBelow b ps') (hroot : root < b)
    (hplan : plan.Agree b Eq ps ps' plan') {subject : Key} {view view' : View}
    (hview : ∀ q < b, view'.get? q = view.get? q) :
    searchFor ⟨f, ps', watermark⟩ root plan' subject view' =
      searchFor ⟨f, ps, watermark⟩ root plan subject view := by
  induction root using Nat.strongRecOn generalizing plan plan' subject view view' with
  | ind root ih =>
    have hinner : InnerAgree b ps ps'
        (fun (q : Fin root) nested key view => searchFor ⟨f, ps, watermark⟩ q.val nested key view)
        (fun (q : Fin root) nested key view =>
          searchFor ⟨f, ps', watermark⟩ q.val nested key view) := by
      intro t t' plan plan' key view view' ht hlt hplan hview
      dsimp only
      rw [ht]
      exact ih t.val t.isLt hlt hplan hview
    have hempty : ∀ q < b, Couplings.empty.get? q = none := fun _ _ => rfl
    have hstart : Progress.Agree b .empty (Progress.start : Progress root)
        (Progress.start : Progress root) :=
      ⟨⟨rfl, rfl⟩, rfl, by simp [Progress.start], .nil, .nil⟩
    have hattempt : Attempt.Mirrors (Couplings.Agree .empty)
        (attempt ⟨f, ps, watermark⟩ plan root subject view fun q nested key view =>
          searchFor ⟨f, ps, watermark⟩ q.val nested key view)
        (attempt ⟨f, ps', watermark⟩ plan' root subject view' fun q nested key view =>
          searchFor ⟨f, ps', watermark⟩ q.val nested key view) := by
      refine Attempt.mirrors_bind (mirrors_key hps (relabels_eq b) hempty hplan hroot rfl hstart)
        fun pr pr' hpr => ?_
      refine Attempt.mirrors_bind (mirrors_restrict hps (relabels_eq b) hempty hplan hinner hview
        hpr) fun pr pr' hpr => ?_
      exact Attempt.mirrors_pure hpr.couplings
    rw [searchFor, searchFor]
    have hsolve := Walk.solve_alike hattempt
    generalize Walk.solve _ = r at hsolve ⊢
    generalize Walk.solve _ = r' at hsolve ⊢
    cases hsolve with
    | error e => rfl
    | none => rfl
    | @some c c' hc =>
      obtain ⟨keys, paths⟩ := c
      obtain ⟨keys', paths'⟩ := c'
      obtain ⟨rfl, rfl⟩ : keys' = keys ∧ paths' = paths :=
        ⟨hc.keys.trans (List.append_nil keys), hc.paths.trans (List.append_nil paths)⟩
      rfl

end Scene

end Espalier
