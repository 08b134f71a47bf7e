import Espalier.Proofs.Plan

/-!
# Elections and the scopes of a plan

An election is a worklist: the first link that comes to a pattern keys it, and the links of that
pattern are put at the end of the queue or set aside.  Scope for scope a plan is made of such
elections.  They come to an end, since a scope that is entered through a disjunct and a plan behind
an abnormal link start at an earlier pattern.
-/

namespace Espalier

variable {s : Schema}

/-! ## Worklists -/

namespace PatternSet

variable (ps : PatternSet s) (p : PatternId)

/-- The links that are followed once `p` has been keyed. -/
def follows : List (LinkId × PatternId) :=
  if ps.isDisjunction p then []
  else ((ps.query p).links.filter fun l => l.kind ≠ .abnormal).map fun l =>
    (.child p l.slot, l.target.val)

/-- The links of `p` that lead into scopes of their own. -/
def defers : List ((PatternId × Nat) × PatternId) :=
  if ps.isDisjunction p then
    ((ps.query p).links.filter fun l => l.kind ≠ .abnormal).map fun l => ((p, l.slot), l.target.val)
  else []

/-- The links of `p` that lead to plans of their own. -/
def guards : List ((PatternId × Nat) × PatternId) :=
  ((ps.query p).links.filter fun l => l.kind = .abnormal).map fun l => ((p, l.slot), l.target.val)

end PatternSet

/-- An election under way, with the links that are still to be looked at. -/
structure Worklist where
  queue : List (LinkId × PatternId)
  keyers : List LinkId
  keyed : List PatternId
  deferred : List ((PatternId × Nat) × PatternId)
  abnormal : List ((PatternId × Nat) × PatternId)
deriving DecidableEq, Repr

namespace Worklist

/-- Look at the first link of the queue. -/
def turn (ps : PatternSet s) (w : Worklist) : Option Worklist :=
  match w.queue with
  | [] => none
  | (l, p) :: queue =>
    if p ∈ w.keyed then some { w with queue }
    else some
      { queue := queue ++ ps.follows p
        keyers := w.keyers ++ [l]
        keyed := w.keyed ++ [p]
        deferred := w.deferred ++ ps.defers p
        abnormal := w.abnormal ++ ps.guards p }

/-- Turn after turn the queue of `w` becomes empty, and `final` is what is left then. -/
inductive Drains (ps : PatternSet s) : Worklist → Worklist → Prop where
  | done {w : Worklist} (h : w.turn ps = none) : Drains ps w w
  | next {w w' final : Worklist} (h : w.turn ps = some w') (hrest : Drains ps w' final) :
      Drains ps w final

variable {ps : PatternSet s} {w w' final : Worklist}

/-- One turn keys at most one pattern, and sets aside the links of that pattern. -/
theorem turn_cases (h : w.turn ps = some w') : ∃ new, w'.keyed = w.keyed ++ new ∧
    w'.deferred = w.deferred ++ new.flatMap ps.defers ∧
    w'.abnormal = w.abnormal ++ new.flatMap ps.guards := by
  unfold turn at h
  split at h
  next => cases h
  next l p queue hqueue =>
    split at h
    next => cases h; exact ⟨[], by simp⟩
    next => cases h; exact ⟨[p], by simp⟩

theorem Drains.exists_keyed (h : Drains ps w final) : ∃ new, final.keyed = w.keyed ++ new ∧
    final.deferred = w.deferred ++ new.flatMap ps.defers ∧
    final.abnormal = w.abnormal ++ new.flatMap ps.guards := by
  induction h with
  | done => exact ⟨[], by simp⟩
  | next h _ ih =>
    obtain ⟨new, hkeyed, hdeferred, habnormal⟩ := turn_cases h
    obtain ⟨new', hkeyed', hdeferred', habnormal'⟩ := ih
    refine ⟨new ++ new', ?_, ?_, ?_⟩
    · rw [hkeyed', hkeyed, List.append_assoc]
    · rw [hdeferred', hdeferred, List.append_assoc, List.flatMap_append]
    · rw [habnormal', habnormal, List.append_assoc, List.flatMap_append]

end Worklist

namespace Election

variable {ps : PatternSet s} {n m : Nat}

/-- What an election has found, and the links that it still has to follow. -/
def worklist (e : Election n) (queue : List (LinkId × PatternId)) : Worklist :=
  ⟨queue, e.keyers, e.keyed, outs e.deferred, outs e.abnormal⟩

/-- The links of a level are looked at one after the other, and those of the next are put at the
end. -/
theorem drains_of_level {h : m ≤ n} {links : List (LinkId × Fin (m + 1))} {e : Election n}
    {later : List (LinkId × PatternId)} {final : Worklist}
    (hrest : Worklist.Drains ps
      ((level ps h links e).1.worklist (later ++ flat (level ps h links e).2)) final) :
    Worklist.Drains ps (e.worklist (flat links ++ later)) final := by
  induction links generalizing e later with
  | nil =>
    rw [level, flat_nil, List.append_nil] at hrest
    exact hrest
  | cons x links ih =>
    obtain ⟨l, p⟩ := x
    rw [level] at hrest
    split at hrest
    next hp =>
      refine .next ?_ (ih hrest)
      exact if_pos hp
    next hp =>
      dsimp only at hrest
      rw [flat_append, ← List.append_assoc] at hrest
      refine .next ?_ (ih hrest)
      rw [Worklist.turn, worklist, flat_cons, List.cons_append]
      dsimp only
      rw [if_neg hp, worklist, keyers_sortLinks, keyed_sortLinks, outs_deferred_sortLinks,
        outs_abnormal_sortLinks, flat_sortLinks, List.append_assoc]
      rfl

theorem drains_levels {k : Nat} {h : k ≤ n + 1} {links : List (LinkId × Fin k)} {e : Election n} :
    Worklist.Drains ps (e.worklist (flat links)) ((levels ps k h links e).worklist []) := by
  induction k generalizing e with
  | zero =>
    cases links with
    | nil => exact .done rfl
    | cons x _ => exact x.2.elim0
  | succ k ih =>
    rw [← List.append_nil (flat links), levels]
    exact drains_of_level ih

/-- An election level by level finds what the worklist comes to. -/
theorem drains_run (ps : PatternSet s) (keyed : List PatternId) (link : LinkId) (seed : PatternId) :
    Worklist.Drains ps ⟨[(link, seed)], [], keyed, [], []⟩
      ((run ps keyed link seed).worklist []) := by
  have h : Worklist.Drains ps (worklist ⟨[], keyed, [], []⟩ (flat [(link, Fin.last seed)]))
      ((run ps keyed link seed).worklist []) := drains_levels
  exact h

end Election

/-! ## Links by their names -/

theorem lookup_eq_some_of_mem {α β : Type} [BEq α] [LawfulBEq α] {xs : List (α × β)} {a : α} {b : β}
    (hnodup : (xs.map Prod.fst).Nodup) (h : (a, b) ∈ xs) : xs.lookup a = some b := by
  obtain ⟨b', hb'⟩ := exists_lookup_of_mem h
  have heq := List.inj_on_of_nodup_map hnodup h (mem_of_lookup hb') rfl
  rw [hb', (Prod.mk.inj heq).2]

namespace PatternSet

variable (ps : PatternSet s)

/-- Links of patterns that differ have different names, and so have the links of one pattern. -/
theorem nodup_map_fst_flatMap {new : List PatternId} (hnew : new.Nodup)
    {g : PatternId → List ((PatternId × Nat) × PatternId)}
    (hg : ∀ p, ∃ ls : List (Link (Fin p)), ls.Sublist (ps.query p).links ∧
      (g p).map Prod.fst = ls.map fun l => (p, l.slot)) :
    ((new.flatMap g).map Prod.fst).Nodup := by
  rw [List.map_flatMap, List.nodup_flatMap]
  refine ⟨fun p _ => ?_, hnew.imp fun {p q} hne => ?_⟩
  · obtain ⟨ls, hls, hp⟩ := hg p
    have hslots : (ls.map Link.slot).Nodup := (hls.map Link.slot).nodup (nodup_slot_query _)
    rw [hp, ← Function.comp_def (Prod.mk p) Link.slot, ← List.map_map]
    exact hslots.map fun _ _ heq => (Prod.mk.inj heq).2
  · obtain ⟨ls, -, hp⟩ := hg p
    obtain ⟨ls', -, hq⟩ := hg q
    change List.Disjoint ((g p).map Prod.fst) ((g q).map Prod.fst)
    rw [hp, hq]
    intro x hx hx'
    obtain ⟨l, -, rfl⟩ := List.mem_map.mp hx
    obtain ⟨l', -, heq⟩ := List.mem_map.mp hx'
    exact hne (Prod.mk.inj heq).1.symm

theorem nodup_defers {new : List PatternId} (hnew : new.Nodup) :
    ((new.flatMap ps.defers).map Prod.fst).Nodup := by
  refine ps.nodup_map_fst_flatMap hnew fun p => ?_
  unfold defers
  split
  · exact ⟨_, List.filter_sublist, by rw [List.map_map]; rfl⟩
  · exact ⟨[], List.nil_sublist _, rfl⟩

theorem nodup_guards {new : List PatternId} (hnew : new.Nodup) :
    ((new.flatMap ps.guards).map Prod.fst).Nodup := by
  refine ps.nodup_map_fst_flatMap hnew fun p => ?_
  exact ⟨_, List.filter_sublist, by rw [guards, List.map_map]; rfl⟩

end PatternSet

namespace Election

variable (ps : PatternSet s) (keyed : List PatternId) (link : LinkId) (seed : PatternId)

/-- No link is set aside twice. -/
theorem nodup_outs_run : ((outs (run ps keyed link seed).deferred).map Prod.fst).Nodup ∧
    ((outs (run ps keyed link seed).abnormal).map Prod.fst).Nodup := by
  obtain ⟨new, c⟩ := census_run ps keyed link seed
  obtain ⟨new', hkeyed, hdeferred, habnormal⟩ := (drains_run ps keyed link seed).exists_keyed
  obtain rfl : new' = new := List.append_cancel_left (hkeyed.symm.trans c.keyed_eq)
  constructor
  · have hnodup := ps.nodup_defers c.nodup
    rwa [← List.nil_append (List.flatMap _ _), ← hdeferred] at hnodup
  · have hnodup := ps.nodup_guards c.nodup
    rwa [← List.nil_append (List.flatMap _ _), ← habnormal] at hnodup

end Election

/-- Every scope that is laid out belongs to one of the links. -/
theorem Laid.exists_of_lt {n i j : Nat} {g : Outlink n → Nat → List Scope} {ls : List (Outlink n)}
    {disjuncts : List ((PatternId × Nat) × Nat)} {below : List Scope}
    (h : Laid g i ls disjuncts below) (hij : i ≤ j) (hj : j < i + below.length) :
    ∃ l ∈ ls, ∃ k, ((l.pattern, l.slot), k) ∈ disjuncts ∧ k ≤ j ∧ j < k + (g l k).length := by
  induction h with
  | nil => exact absurd hj (Nat.not_lt.mpr hij)
  | @cons i l ls disjuncts below _ ih =>
    by_cases hlt : j < i + (g l i).length
    · exact ⟨l, List.mem_cons_self, i, List.mem_cons_self, hij, hlt⟩
    · rw [List.length_append, ← Nat.add_assoc] at hj
      obtain ⟨l', hl', k, hk, hle⟩ := ih (Nat.not_lt.mp hlt) hj
      exact ⟨l', List.mem_cons_of_mem _ hl', k, List.mem_cons_of_mem _ hk, hle⟩

/-! ## What a scope has to be -/

/-- The pattern that a link leads to. -/
def LinkId.Targets (ps : PatternSet s) (root : PatternId) : LinkId → PatternId → Prop
  | .root, q => q = root
  | .child p slot, q => ∃ l ∈ (ps.query p).links, l.slot = slot ∧ l.target.val = q

/-- A way from `seed` to a pattern by links that are not abnormal, which leaves neither disjunctions
nor patterns of `around`. -/
inductive PatternSet.Attains (ps : PatternSet s) (around : List PatternId) (seed : PatternId) :
    PatternId → Prop where
  | seed : Attains ps around seed seed
  | step {p q : PatternId} {slot : Nat} (h : Attains ps around seed p) (hp : p ∉ around)
      (hd : ps.isDisjunction p = false) (hl : ps.Leads p slot q) : Attains ps around seed q

namespace Plan

/-- The plan `outer` and the plans behind abnormal links in it, at any depth. -/
inductive Contains (outer : Plan) : Plan → Prop where
  | self : Contains outer outer
  | nested {plan inner : Plan} {scope : Scope} {key : PatternId × Nat} (h : Contains outer plan)
      (hscope : scope ∈ plan.scopes) (hinner : (key, inner) ∈ scope.nested) : Contains outer inner

/-- A search by `outer` amid the patterns of `master` may come to the scope `i` of `plan`.  It is
entered by `link`, which leads to `seed`, and the patterns of `around` are keyed by then. -/
inductive Enters (ps : PatternSet s) (outer : Plan) (master : List PatternId) :
    Plan → Nat → List PatternId → LinkId → PatternId → Prop where
  | start : Enters ps outer master outer 0 master .root outer.root
  | disjunct {plan : Plan} {i j slot : Nat} {around : List PatternId} {link : LinkId}
      {seed p q : PatternId} (h : Enters ps outer master plan i around link seed)
      (hj : (plan.scope i).disjunct? p slot = some j)
      (hl : ps.Leads p slot q) :
      Enters ps outer master plan j (plan.scope i).keyed (.child p slot) q
  | nested {plan inner : Plan} {i slot : Nat} {around : List PatternId} {link : LinkId}
      {seed p : PatternId} (h : Enters ps outer master plan i around link seed)
      (hinner : (plan.scope i).nested? p slot = some inner) :
      Enters ps outer master inner 0 (plan.scope i).keyed .root inner.root

/-- The scope `i` of `plan`, entered by `link`, holds the outcome of an election from `seed` on amid
the patterns of `around`, and says where to go from there. -/
structure Elects (ps : PatternSet s) (plan : Plan) (i : Nat) (around : List PatternId)
    (link : LinkId) (seed : PatternId) : Prop where
  /-- It is what the worklist comes to that has this one link in its queue. -/
  drains : ∃ deferred abnormal, Worklist.Drains ps ⟨[(link, seed)], [], around, [], []⟩
      ⟨[], (plan.scope i).keyers, (plan.scope i).keyed, deferred, abnormal⟩ ∧
    (plan.scope i).disjuncts.map Prod.fst = deferred.map Prod.fst ∧
    (plan.scope i).nested.map (fun x => (x.1, x.2.root)) = abnormal
  nodup_keyers : (plan.scope i).keyers.Nodup
  existsUnique_keyer : ∀ q ∈ (plan.scope i).keyed, q ∉ around →
    ∃! l, l ∈ (plan.scope i).keyers ∧ l.Targets ps plan.root q
  not_targets : ∀ l ∈ (plan.scope i).keyers, ∀ q ∈ around, ¬ l.Targets ps plan.root q
  mem_keyed_iff : ∀ q, q ∈ (plan.scope i).keyed ↔ q ∈ around ∨ ps.Attains around seed q
  /-- What is entered from here starts at an earlier pattern. -/
  lt_seed : ∀ p ∈ (plan.scope i).keyed, p ∉ around → ∀ slot q,
    ps.Leads p slot q ∨ ps.Guards p slot q → q < seed
  disjunct_iff : ∀ p slot, (∃ j, (plan.scope i).disjunct? p slot = some j) ↔
    p ∈ (plan.scope i).keyed ∧ p ∉ around ∧ ps.isDisjunction p = true ∧ ∃ q, ps.Leads p slot q
  disjunct_lt : ∀ p slot j, (plan.scope i).disjunct? p slot = some j →
    i < j ∧ j < plan.scopes.length
  nested_iff : ∀ p slot q, (∃ inner, (plan.scope i).nested? p slot = some inner ∧ inner.root = q) ↔
    p ∈ (plan.scope i).keyed ∧ p ∉ around ∧ ps.Guards p slot q

end Plan

theorem LinkId.Targets.unique {ps : PatternSet s} {root q q' : PatternId} {l : LinkId}
    (h : l.Targets ps root q) (h' : l.Targets ps root q') : q = q' := by
  cases l with
  | root => exact Eq.trans h (Eq.symm h')
  | child p slot =>
    obtain ⟨l, hl, rfl, rfl⟩ := h
    obtain ⟨l', hl', hslot, rfl⟩ := h'
    rw [PatternSet.link_ext hl hl' hslot.symm]

theorem PatternSet.Leads.targets {ps : PatternSet s} {root p q : PatternId} {slot : Nat}
    (h : ps.Leads p slot q) : (LinkId.child p slot).Targets ps root q := by
  obtain ⟨l, hl, -, hslot, htarget⟩ := h
  exact ⟨l, hl, hslot, htarget⟩

namespace Plan

namespace Scoped

variable {ps : PatternSet s} {plan : Plan} {i : Nat} {around new : List PatternId} {link l : LinkId}
  {seed p q : PatternId}

theorem mem_new_iff (sc : plan.Scoped ps i around link seed new) :
    p ∈ new ↔ p ∈ (plan.scope i).keyed ∧ p ∉ around := by
  rw [sc.keyed_eq, List.mem_append]
  constructor
  · intro hp
    exact ⟨.inr hp, sc.fresh p hp⟩
  · rintro ⟨hp | hp, hfresh⟩
    · exact (hfresh hp).elim
    · exact hp

theorem attains_of_within (sc : plan.Scoped ps i around link seed new)
    (h : Within ps (plan.scope i) link seed l q) : ps.Attains around seed q := by
  induction h with
  | self => exact .seed
  | step hw hd hl _ ih =>
    have hnew := sc.mem_of_isKeyer (sc.considered_of_within .seed hw) hw.isKeyer
    exact .step ih (sc.fresh _ hnew) hd hl

theorem mem_keyed_of_attains (sc : plan.Scoped ps i around link seed new)
    (h : ps.Attains around seed q) : q ∈ (plan.scope i).keyed := by
  induction h with
  | seed => exact sc.closed .seed
  | step _ hp hd hl ih => exact sc.closed (.child (sc.mem_new_iff.mpr ⟨ih, hp⟩) hd hl)

theorem mem_keyed_iff (sc : plan.Scoped ps i around link seed new) :
    q ∈ (plan.scope i).keyed ↔ q ∈ around ∨ ps.Attains around seed q := by
  constructor
  · intro hq
    rw [sc.keyed_eq, List.mem_append] at hq
    refine hq.imp_right fun hnew => ?_
    obtain ⟨l, hw⟩ := sc.exists_within hnew
    exact sc.attains_of_within hw
  · rintro (hq | hq)
    · rw [sc.keyed_eq]
      exact List.mem_append_left _ hq
    · exact sc.mem_keyed_of_attains hq

theorem exists_considered (sc : plan.Scoped ps i around link seed new)
    (h : l ∈ (plan.scope i).keyers) : ∃ q ∈ new, Considered ps new link seed l q := by
  obtain ⟨k, hk, rfl⟩ := List.mem_iff_getElem.mp h
  obtain ⟨hlen, hrel⟩ := List.forall₂_iff_get.mp sc.keyers
  exact ⟨_, List.getElem_mem (hlen ▸ hk), hrel k hk (hlen ▸ hk)⟩

theorem nodup_keyers (sc : plan.Scoped ps i around link seed new) :
    (plan.scope i).keyers.Nodup := by
  obtain ⟨hlen, hrel⟩ := List.forall₂_iff_get.mp sc.keyers
  rw [List.nodup_iff_injective_get]
  rintro ⟨k, hk⟩ ⟨k', hk'⟩ heq
  -- Two places with one link have one target, and no pattern is keyed twice.
  have htarget := hrel k' hk' (hlen ▸ hk')
  rw [← heq] at htarget
  have hsame := sc.considered_unique (hrel k hk (hlen ▸ hk)) htarget
  exact Fin.ext ((List.Nodup.getElem_inj_iff sc.nodup).mp hsame)

theorem targets_of_considered (hlink : link.Targets ps plan.root seed)
    (h : Considered ps new link seed l q) : l.Targets ps plan.root q := by
  cases h with
  | seed => exact hlink
  | child _ _ hl => exact hl.targets

theorem existsUnique_keyer (sc : plan.Scoped ps i around link seed new)
    (hlink : link.Targets ps plan.root seed) (hq : q ∈ new) :
    ∃! l, l ∈ (plan.scope i).keyers ∧ l.Targets ps plan.root q := by
  obtain ⟨l, hk, hl⟩ := sc.exists_keyer hq
  refine ⟨l, ⟨by simpa [Scope.isKeyer] using hk, targets_of_considered hlink hl⟩, ?_⟩
  rintro l' ⟨hk', hl'⟩
  obtain ⟨q', -, hq'⟩ := sc.exists_considered hk'
  rw [(targets_of_considered hlink hq').unique hl'] at hq'
  exact sc.keyer_unique hq' (by simpa [Scope.isKeyer] using hk') hl hk

theorem not_targets (sc : plan.Scoped ps i around link seed new)
    (hlink : link.Targets ps plan.root seed) (hl : l ∈ (plan.scope i).keyers) (hq : q ∈ around) :
    ¬ l.Targets ps plan.root q := by
  intro htargets
  obtain ⟨q', hnew, hq'⟩ := sc.exists_considered hl
  rw [(targets_of_considered hlink hq').unique htargets] at hnew
  exact sc.fresh q hnew hq

end Scoped

/-! ## Every scope -/

section Scopes

variable {ps : PatternSet s} {plan inner : Plan} {i j : Nat} {around master : List PatternId}
  {link : LinkId} {root seed p : PatternId} {slot : Nat} {key : PatternId × Nat}

theorem Entered.exists_laid (h : plan.Entered ps i around link seed) {e : Election seed}
    (he : Election.run ps around link seed = e) : ∃ disjuncts below,
      fill ps around link seed i = plan.scope i :: below ∧
      plan.scope i = .mk e.keyers e.keyed disjuncts
        (e.abnormal.map fun l => ((l.pattern, l.slot), amid ps e.keyed l.target.val)) ∧
      Laid (fun l => fill ps e.keyed (.child l.pattern l.slot) l.target.val) (i + 1) e.deferred
        disjuncts below := by
  obtain ⟨disjuncts, below, hfill, hlaid⟩ := Plan.exists_laid ps around link seed i he
  have hpre := h.isPrefix
  rw [hfill] at hpre
  have hscope := scope_eq_of_isPrefix hpre
  exact ⟨disjuncts, below, by rw [hfill, hscope], hscope, hlaid⟩

theorem Entered.nodup_disjuncts (h : plan.Entered ps i around link seed) :
    ((plan.scope i).disjuncts.map Prod.fst).Nodup := by
  have hnodup := (Election.nodup_outs_run ps around link seed).1
  generalize he : Election.run ps around link seed = e at hnodup
  obtain ⟨disjuncts, below, -, hscope, hlaid⟩ := h.exists_laid he
  rw [hscope]
  change (disjuncts.map Prod.fst).Nodup
  rw [hlaid.map_fst]
  rwa [Election.outs, List.map_map] at hnodup

theorem Entered.nodup_nested (h : plan.Entered ps i around link seed) :
    ((plan.scope i).nested.map Prod.fst).Nodup := by
  have hnodup := (Election.nodup_outs_run ps around link seed).2
  generalize he : Election.run ps around link seed = e at hnodup
  obtain ⟨disjuncts, below, -, hscope, -⟩ := h.exists_laid he
  rw [hscope, Scope.nested, List.map_map]
  rwa [Election.outs, List.map_map] at hnodup

theorem Enters.entered (h : Enters ps (amid ps master root) master plan i around link seed) :
    plan.Entered ps i around link seed ∧ link.Targets ps plan.root seed := by
  induction h with
  | start => exact ⟨entered_amid ps master root, rfl⟩
  | disjunct _ hj hl ih =>
    obtain ⟨new, sc⟩ := ih.1.scoped
    obtain ⟨-, -, q, hq, hentered⟩ := sc.of_disjunct hj
    rw [← hl.unique hq] at hentered
    exact ⟨hentered, hl.targets⟩
  | nested _ hinner ih =>
    obtain ⟨new, sc⟩ := ih.1.scoped
    obtain ⟨q, -, -, rfl⟩ := sc.of_nested hinner
    exact ⟨entered_amid ps _ q, rfl⟩

/-- The scopes that are laid out for an entry are all entered. -/
theorem Enters.exists_of_lt (h : Enters ps (amid ps master root) master plan i around link seed)
    (hij : i ≤ j) (hj : j < i + (fill ps around link seed i).length) :
    ∃ around' link' seed', Enters ps (amid ps master root) master plan j around' link' seed' := by
  induction seed using Nat.strongRecOn generalizing i around link with
  | ind seed ih =>
    obtain ⟨new, c⟩ := Election.census_run ps around link seed
    generalize he : Election.run ps around link seed = e at c
    obtain ⟨disjuncts, below, hfill, hscope, hlaid⟩ := h.entered.1.exists_laid he
    rw [hfill, List.length_cons] at hj
    rcases Nat.eq_or_lt_of_le hij with rfl | hij
    · exact ⟨around, link, seed, h⟩
    · obtain ⟨o, ho, k, hk, hle, hlt⟩ := hlaid.exists_of_lt hij (by omega)
      have hdisjunct : (plan.scope i).disjunct? o.pattern o.slot = some k :=
        lookup_eq_some_of_mem h.entered.1.nodup_disjuncts (by rwa [hscope])
      have henters := Enters.disjunct h hdisjunct (c.of_deferred o ho).2.2
      rw [hscope] at henters
      exact ih o.target.val o.target.isLt henters hle hlt

theorem Contains.enters (h : (amid ps master root).Contains plan) (hi : i < plan.scopes.length) :
    ∃ around link seed, Enters ps (amid ps master root) master plan i around link seed := by
  induction h generalizing i with
  | self => exact Enters.exists_of_lt .start (Nat.zero_le i) (by rwa [Nat.zero_add])
  | @nested plan inner scope key _ hscope hinner ih =>
    obtain ⟨k, hk, rfl⟩ := List.mem_iff_getElem.mp hscope
    obtain ⟨around, link, seed, henters⟩ := ih hk
    have heq : plan.scope k = plan.scopes[k] := by simp [Plan.scope, hk]
    rw [← heq] at hinner
    have hlookup : (plan.scope k).nested? key.1 key.2 = some inner :=
      lookup_eq_some_of_mem henters.entered.1.nodup_nested hinner
    have hnested := Enters.nested henters hlookup
    obtain ⟨new, sc⟩ := henters.entered.1.scoped
    obtain ⟨q, -, -, rfl⟩ := sc.of_nested hlookup
    exact hnested.exists_of_lt (Nat.zero_le i) (by rwa [Nat.zero_add])

theorem Enters.elects (h : Enters ps (amid ps master root) master plan i around link seed) :
    plan.Elects ps i around link seed := by
  obtain ⟨hentered, hlink⟩ := h.entered
  obtain ⟨new, sc⟩ := hentered.scoped
  constructor
  case drains =>
    have hdrains := Election.drains_run ps around link seed
    generalize he : Election.run ps around link seed = e at hdrains
    obtain ⟨disjuncts, below, -, hscope, hlaid⟩ := hentered.exists_laid he
    rw [hscope]
    refine ⟨_, _, hdrains, ?_, ?_⟩
    · rw [Election.outs, List.map_map]
      exact hlaid.map_fst
    · exact List.map_map
  case nodup_keyers => exact sc.nodup_keyers
  case existsUnique_keyer =>
    intro q hq hfresh
    exact sc.existsUnique_keyer hlink (sc.mem_new_iff.mpr ⟨hq, hfresh⟩)
  case not_targets => exact fun l hl q hq => sc.not_targets hlink hl hq
  case mem_keyed_iff => exact fun q => sc.mem_keyed_iff
  case lt_seed =>
    intro p hp hfresh slot q hlink
    have hle := sc.le_seed p (sc.mem_new_iff.mpr ⟨hp, hfresh⟩)
    rcases hlink with hl | ⟨l, -, -, -, rfl⟩
    · exact Nat.lt_of_lt_of_le hl.lt hle
    · exact Nat.lt_of_lt_of_le l.target.isLt hle
  case disjunct_iff =>
    intro p slot
    rw [← and_assoc, ← sc.mem_new_iff]
    constructor
    · rintro ⟨j, hj⟩
      obtain ⟨hp, hd, q, hl, -⟩ := sc.of_disjunct hj
      exact ⟨hp, hd, q, hl⟩
    · rintro ⟨hp, hd, q, hl⟩
      obtain ⟨j, hj, -⟩ := sc.disjunct hp hd hl
      exact ⟨j, hj⟩
  case disjunct_lt =>
    intro p slot j hj
    obtain ⟨-, -, q, -, hentered'⟩ := sc.of_disjunct hj
    refine ⟨?_, hentered'.lt_length⟩
    obtain ⟨disjuncts, below, -, hscope, hlaid⟩ := hentered.exists_laid rfl
    rw [hscope] at hj
    obtain ⟨o, -, k, heq, -⟩ := hlaid.of_mem (mem_of_lookup hj)
    have hjk := (Prod.mk.inj heq).2
    omega
  case nested_iff =>
    intro p slot q
    rw [← and_assoc, ← sc.mem_new_iff]
    constructor
    · rintro ⟨inner, hinner, rfl⟩
      obtain ⟨q, hp, hguards, rfl⟩ := sc.of_nested hinner
      exact ⟨hp, hguards⟩
    · rintro ⟨hp, hguards⟩
      exact ⟨_, sc.nested hp hguards, rfl⟩

end Scopes

/-- Keyers are elected in all scopes of a plan, and in those of the plans behind its abnormal
links. -/
theorem elects_make (ps : PatternSet s) (root : PatternId) (master : List PatternId) :
    (∀ plan, (make ps root master).Contains plan → ∀ i < plan.scopes.length, ∃ around link seed,
      Enters ps (make ps root master) master.eraseDups plan i around link seed) ∧
    ∀ plan i around link seed,
      Enters ps (make ps root master) master.eraseDups plan i around link seed →
      plan.Elects ps i around link seed := by
  constructor
  · intro plan hplan i hi
    exact Contains.enters hplan hi
  · intro plan i around link seed h
    exact Enters.elects h

/-- One of two disjuncts is keyed around its scope, which elects no keyer then. -/
example : (make ((((((PatternSet.empty : PatternSet Schema.base).push ⟨0, .standard none []⟩).push
    ⟨0, .standard none []⟩).push ⟨0, .matchAny [0, 1]⟩).push ⟨0, .notMatch 1⟩).push
    ⟨0, .matchAll [2, 0, 3]⟩) 4 []).scopes.map Scope.keyers =
    [[.root, .child 4 0, .child 4 1, .child 4 2], [], [.child 2 1]] := by
  decide +kernel

end Plan

end Espalier
