import Espalier.Proofs.Binding

/-!
# Contested patterns

On its way through the scopes of a plan an attempt takes one disjunct of every disjunction that it
comes to.  Within one scope each pattern has one keyer, and a disjunct never keys what is keyed
around it; but two disjunctions of one scope are planned apart from each other, and each of them may
bring a keyer of the same pattern.  Such a pattern is contested, and contested patterns are the only
ones that a walk through the plan may key twice.
-/

namespace Espalier

variable {s : Schema}

/-- The links that are followed from `p` at a time: one of a disjunction, and otherwise all that are
not abnormal. -/
def PatternSet.Follows (ps : PatternSet s) (p : PatternId) (chosen : List (Nat × PatternId)) :
    Prop :=
  if ps.isDisjunction p then ∃ slot q, ps.Leads p slot q ∧ chosen = [(slot, q)]
  else chosen.Perm (((ps.query p).links.filter fun l => l.kind ≠ .abnormal).map fun l =>
    (l.slot, l.target.val))

namespace Plan

/-- The scope in which the link of `p` at `slot` is followed from the scope `i`. -/
def next (plan : Plan) (i : Nat) (p : PatternId) (slot : Nat) : Nat :=
  ((plan.scope i).disjunct? p slot).getD i

mutual

/-- An attempt that follows `link` to `p` in the scope `i` may key the patterns listed, in this
order. -/
inductive Walks (ps : PatternSet s) (plan : Plan) : Nat → LinkId → PatternId → List PatternId → Prop
  | residual {i : Nat} {link : LinkId} {p : PatternId}
      (hk : (plan.scope i).isKeyer link = false) : Walks ps plan i link p []
  | keyed {i : Nat} {link : LinkId} {p : PatternId} {chosen : List (Nat × PatternId)}
      {keys : List PatternId} (hk : (plan.scope i).isKeyer link = true)
      (hc : ps.Follows p chosen) (h : WalksAll ps plan i p chosen keys) :
      Walks ps plan i link p (p :: keys)

/-- The same for links of `p` that are followed one after the other. -/
inductive WalksAll (ps : PatternSet s) (plan : Plan) :
    Nat → PatternId → List (Nat × PatternId) → List PatternId → Prop
  | nil {i : Nat} {p : PatternId} : WalksAll ps plan i p [] []
  | cons {i slot : Nat} {p q : PatternId} {rest : List (Nat × PatternId)}
      {keys keys' : List PatternId} (h : Walks ps plan (plan.next i p slot) (.child p slot) q keys)
      (hrest : WalksAll ps plan i p rest keys') :
      WalksAll ps plan i p ((slot, q) :: rest) (keys ++ keys')

end

/-- Keyers lead from `link`, which leads to `p` in the scope `i`, to `q`, there or in the scopes of
disjuncts met on the way. -/
inductive Reaches (ps : PatternSet s) (plan : Plan) : Nat → LinkId → PatternId → PatternId → Prop
  | within {i : Nat} {link l : LinkId} {p q : PatternId}
      (h : Within ps (plan.scope i) link p l q) : Reaches ps plan i link p q
  | enter {i j slot : Nat} {link l : LinkId} {p m t q : PatternId}
      (h : Within ps (plan.scope i) link p l m) (hj : (plan.scope i).disjunct? m slot = some j)
      (ht : ps.Leads m slot t) (hr : Reaches ps plan j (.child m slot) t q) :
      Reaches ps plan i link p q

/-- Keyers lead to `q` through a disjunct of `m`, which is keyed in the scope `i`. -/
def ReachesBy (ps : PatternSet s) (plan : Plan) (i : Nat) (m q : PatternId) : Prop :=
  ∃ slot j t, (plan.scope i).disjunct? m slot = some j ∧ ps.Leads m slot t ∧
    Reaches ps plan j (.child m slot) t q

/-- Two different disjunctions of one scope have disjuncts through which keyers lead to `q`. -/
def Contested (ps : PatternSet s) (plan : Plan) (q : PatternId) : Prop :=
  ∃ i m m', plan.Open i ∧ m ≠ m' ∧ plan.ReachesBy ps i m q ∧ plan.ReachesBy ps i m' q

variable {ps : PatternSet s} {plan : Plan} {i : Nat} {keyed new : List PatternId}
  {entry link : LinkId} {seed p q t t' : PatternId} {slot slot' : Nat}

theorem Reaches.le (h : plan.Reaches ps i link p q) : q ≤ p := by
  induction h with
  | within h => exact h.le
  | enter h _ ht _ ih => exact Nat.le_trans ih (Nat.le_trans (Nat.le_of_lt ht.lt) h.le)

/-- A disjunct has a scope of its own, around which the scope of its disjunction is keyed. -/
theorem Scoped.scoped_of_disjunct {j : Nat} (sc : plan.Scoped ps i keyed entry seed new)
    (hj : (plan.scope i).disjunct? p slot = some j) (ht : ps.Leads p slot t) :
    p ∈ new ∧ ps.isDisjunction p = true ∧
      ∃ new', plan.Scoped ps j (plan.scope i).keyed (.child p slot) t new' := by
  obtain ⟨hp, hd, t', ht', hentered⟩ := sc.of_disjunct hj
  obtain rfl := ht.unique ht'
  exact ⟨hp, hd, hentered.scoped⟩

/-- Keyers never lead to what is keyed around the scope. -/
theorem Reaches.not_mem (h : plan.Reaches ps i link p q)
    (sc : plan.Scoped ps i keyed entry seed new) (hl : Considered ps new entry seed link p) :
    q ∉ keyed := by
  induction h generalizing keyed entry seed new with
  | within h => exact sc.fresh _ (sc.mem_of_isKeyer (sc.considered_of_within hl h) h.isKeyer)
  | enter _ hj ht _ ih =>
    obtain ⟨-, -, new', sc'⟩ := sc.scoped_of_disjunct hj ht
    intro hq
    refine ih sc' .seed ?_
    rw [sc.keyed_eq]
    exact List.mem_append_left _ hq

/-- A pattern to which two links of one pattern lead is contested. -/
theorem Scoped.contested (sc : plan.Scoped ps i keyed entry seed new)
    (hp : p ∈ new) (hd : ps.isDisjunction p = false) (ht : ps.Leads p slot t)
    (ht' : ps.Leads p slot' t') (hne : slot ≠ slot') (hr : plan.Reaches ps i (.child p slot) t q)
    (hr' : plan.Reaches ps i (.child p slot') t' q) : plan.Contested ps q := by
  have hmem {l l' : LinkId} {t q : PatternId} (hl : Considered ps new entry seed l t)
      (h : Within ps (plan.scope i) l t l' q) : q ∈ (plan.scope i).keyed :=
    sc.closed (sc.considered_of_within hl h)
  have hnot {m t q : PatternId} {slot j : Nat} (hj : (plan.scope i).disjunct? m slot = some j)
      (ht : ps.Leads m slot t) (h : plan.Reaches ps j (.child m slot) t q) :
      q ∉ (plan.scope i).keyed := by
    obtain ⟨-, -, new', sc'⟩ := sc.scoped_of_disjunct hj ht
    exact h.not_mem sc' .seed
  cases hr with
  | within h =>
    cases hr' with
    | within h' => exact (hne (sc.slot_eq_of_within hp hd ht ht' h h')).elim
    | enter _ hj' hlead' hr' => exact (hnot hj' hlead' hr' (hmem (.child hp hd ht) h)).elim
  | enter h hj hlead hr =>
    cases hr' with
    | within h' => exact (hnot hj hlead hr (hmem (.child hp hd ht') h')).elim
    | enter h' hj' hlead' hr' =>
      refine ⟨i, _, _, sc.isOpen, ?_, ⟨_, _, _, hj, hlead, hr⟩, ⟨_, _, _, hj', hlead', hr'⟩⟩
      rintro rfl
      exact hne (sc.slot_eq_of_within hp hd ht ht' h h')

/-! ## Walks that key a pattern twice -/

theorem next_eq_of_not_isDisjunction (sc : plan.Scoped ps i keyed entry seed new)
    (hd : ps.isDisjunction p = false) : plan.next i p slot = i := by
  rw [next, sc.disjunct?_eq_none hd, Option.getD_none]

theorem next_eq_of_disjunct {j : Nat} (hj : (plan.scope i).disjunct? p slot = some j) :
    plan.next i p slot = j := by
  rw [next, hj, Option.getD_some]

/-- A link that is followed from a pattern of a scope is considered where it is followed, and there
nothing is lost of what is keyed around the scope. -/
theorem Scoped.exists_next (sc : plan.Scoped ps i keyed entry seed new) (hp : p ∈ new)
    (hl : ps.Leads p slot q) :
    ∃ keyed' entry' seed' new', plan.Scoped ps (plan.next i p slot) keyed' entry' seed' new' ∧
      Considered ps new' entry' seed' (.child p slot) q ∧ keyed ⊆ keyed' := by
  cases hd : ps.isDisjunction p with
  | false =>
    rw [next_eq_of_not_isDisjunction sc hd]
    exact ⟨keyed, entry, seed, new, sc, .child hp hd hl, fun _ => id⟩
  | true =>
    obtain ⟨j, hj, hentered⟩ := sc.disjunct hp hd hl
    obtain ⟨new', sc'⟩ := hentered.scoped
    rw [next_eq_of_disjunct hj]
    refine ⟨_, _, _, new', sc', .seed, ?_⟩
    rw [sc.keyed_eq]
    exact List.subset_append_left keyed new

theorem Reaches.cons (h : plan.Reaches ps (plan.next i p slot) (.child p slot) t q)
    (sc : plan.Scoped ps i keyed entry seed new) (hp : p ∈ new)
    (hk : (plan.scope i).isKeyer link = true) (hl : ps.Leads p slot t) :
    plan.Reaches ps i link p q := by
  cases hd : ps.isDisjunction p with
  | false =>
    rw [next_eq_of_not_isDisjunction sc hd] at h
    cases h with
    | within h => exact .within (h.cons hk hd hl)
    | enter h hj ht hr => exact .enter (h.cons hk hd hl) hj ht hr
  | true =>
    obtain ⟨j, hj, -⟩ := sc.disjunct hp hd hl
    rw [next_eq_of_disjunct hj] at h
    exact .enter (.self hk) hj hl h

end Plan

namespace PatternSet.Follows

variable {ps : PatternSet s} {p q : PatternId} {slot : Nat} {chosen : List (Nat × PatternId)}

theorem leads (h : ps.Follows p chosen) (hmem : (slot, q) ∈ chosen) : ps.Leads p slot q := by
  rw [Follows] at h
  split at h
  · obtain ⟨slot', q', hl, rfl⟩ := h
    cases List.mem_singleton.mp hmem
    exact hl
  · obtain ⟨l, hl, heq⟩ := List.mem_map.mp (h.mem_iff.mp hmem)
    obtain ⟨hl, hk⟩ := List.mem_filter.mp hl
    cases heq
    exact ⟨l, hl, by simpa using hk, rfl, rfl⟩

theorem nodup (h : ps.Follows p chosen) : (chosen.map Prod.fst).Nodup := by
  rw [Follows] at h
  split at h
  · obtain ⟨slot', q', -, rfl⟩ := h
    simp
  · have hperm := h.map Prod.fst
    rw [List.map_map] at hperm
    exact hperm.nodup_iff.mpr ((nodup_slot_query _).sublist (List.filter_sublist.map _))

theorem eq_singleton (h : ps.Follows p chosen) (hd : ps.isDisjunction p = true) :
    ∃ slot q, chosen = [(slot, q)] := by
  rw [Follows, if_pos hd] at h
  obtain ⟨slot, q, -, rfl⟩ := h
  exact ⟨slot, q, rfl⟩

end PatternSet.Follows

namespace Plan

variable {ps : PatternSet s} {plan : Plan} {i : Nat} {keyed new keys : List PatternId}
  {entry link : LinkId} {seed p q : PatternId} {chosen : List (Nat × PatternId)}

theorem WalksAll.exists_mem (h : plan.WalksAll ps i p chosen keys) (hq : q ∈ keys) :
    ∃ slot t keys', (slot, t) ∈ chosen ∧
      plan.Walks ps (plan.next i p slot) (.child p slot) t keys' ∧ q ∈ keys' := by
  induction chosen generalizing keys with
  | nil =>
    cases h
    cases hq
  | cons x chosen ih =>
    cases h with
    | cons h hrest =>
      rcases List.mem_append.mp hq with hq | hq
      · exact ⟨_, _, _, by simp, h, hq⟩
      · obtain ⟨slot, t, keys', hmem, h, hq⟩ := ih hrest hq
        exact ⟨slot, t, keys', List.mem_cons_of_mem _ hmem, h, hq⟩

theorem Walks.reaches (h : plan.Walks ps i link p keys)
    (sc : plan.Scoped ps i keyed entry seed new) (hl : Considered ps new entry seed link p)
    (hq : q ∈ keys) : plan.Reaches ps i link p q := by
  induction p using Nat.strongRecOn generalizing i link keys keyed entry seed new with
  | ind p ih =>
    cases h with
    | residual => cases hq
    | keyed hk hc h =>
      rcases List.mem_cons.mp hq with rfl | hq
      · exact .within (.self hk)
      · obtain ⟨slot, t, keys', hmem, h, hq⟩ := h.exists_mem hq
        have hlead := hc.leads hmem
        have hp := sc.mem_of_isKeyer hl hk
        obtain ⟨_, _, _, _, sc', hl', -⟩ := sc.exists_next hp hlead
        exact (ih t hlead.lt h sc' hl' hq).cons sc hp hk hlead

/-- Two links of `p` key `q`, or one of them keys it twice. -/
theorem WalksAll.exists_of_two_le_count (h : plan.WalksAll ps i p chosen keys)
    (hnodup : (chosen.map Prod.fst).Nodup) (hq : 2 ≤ keys.count q) :
    (∃ slot t keys', (slot, t) ∈ chosen ∧
      plan.Walks ps (plan.next i p slot) (.child p slot) t keys' ∧ 2 ≤ keys'.count q) ∨
    ∃ slot t keys₁ slot' t' keys₂, slot ≠ slot' ∧ (slot, t) ∈ chosen ∧ (slot', t') ∈ chosen ∧
      plan.Walks ps (plan.next i p slot) (.child p slot) t keys₁ ∧ q ∈ keys₁ ∧
      plan.Walks ps (plan.next i p slot') (.child p slot') t' keys₂ ∧ q ∈ keys₂ := by
  induction chosen generalizing keys with
  | nil =>
    cases h
    simp at hq
  | cons x chosen ih =>
    cases h with
    | @cons _ slot _ t _ keys₁ keys₂ h hrest =>
      rw [List.map_cons, List.nodup_cons] at hnodup
      rw [List.count_append] at hq
      by_cases hfirst : 2 ≤ keys₁.count q
      · exact .inl ⟨slot, t, keys₁, by simp, h, hfirst⟩
      by_cases hmem : q ∈ keys₁
      · have hmem' : q ∈ keys₂ := List.count_pos_iff.mp (by omega)
        obtain ⟨slot', t', keys', hchosen, h', hq'⟩ := hrest.exists_mem hmem'
        refine .inr ⟨slot, t, keys₁, slot', t', keys', ?_, by simp, by simp [hchosen], h,
          hmem, h', hq'⟩
        rintro rfl
        exact hnodup.1 (List.mem_map.mpr ⟨_, hchosen, rfl⟩)
      · rw [List.count_eq_zero_of_not_mem hmem, Nat.zero_add] at hq
        rcases ih hrest hnodup.2 hq with ⟨slot', t', keys', hchosen, h'⟩ |
          ⟨slot₁, t₁, keys₁, slot₂, t₂, keys₂, hne, h₁, h₂, h'⟩
        · exact .inl ⟨slot', t', keys', by simp [hchosen], h'⟩
        · exact .inr ⟨slot₁, t₁, keys₁, slot₂, t₂, keys₂, hne, by simp [h₁], by simp [h₂], h'⟩

/-- A pattern that a walk keys twice is contested. -/
theorem Walks.contested (h : plan.Walks ps i link p keys)
    (sc : plan.Scoped ps i keyed entry seed new) (hl : Considered ps new entry seed link p)
    (hq : 2 ≤ keys.count q) : plan.Contested ps q := by
  induction p using Nat.strongRecOn generalizing i link keys keyed entry seed new with
  | ind p ih =>
    cases h with
    | residual => simp at hq
    | @keyed _ _ _ chosen keys hk hc h =>
      have hp := sc.mem_of_isKeyer hl hk
      have hreach {slot t keys'} (hmem : (slot, t) ∈ chosen)
          (h : plan.Walks ps (plan.next i p slot) (.child p slot) t keys') (hq : q ∈ keys') :
          plan.Reaches ps (plan.next i p slot) (.child p slot) t q := by
        obtain ⟨_, _, _, _, sc', hl', -⟩ := sc.exists_next hp (hc.leads hmem)
        exact h.reaches sc' hl' hq
      have hne : p ≠ q := by
        rintro rfl
        rw [List.count_cons_self] at hq
        have hpos : p ∈ keys := List.count_pos_iff.mp
          (Nat.lt_of_succ_le (Nat.le_of_succ_le_succ hq))
        obtain ⟨slot, t, keys', hmem, h, hq⟩ := h.exists_mem hpos
        exact absurd (hreach hmem h hq).le (Nat.not_le.mpr (hc.leads hmem).lt)
      rw [List.count_cons_of_ne hne] at hq
      rcases h.exists_of_two_le_count hc.nodup hq with ⟨slot, t, keys', hmem, h, hq⟩ |
        ⟨slot, t, keys₁, slot', t', keys₂, hslot, hmem, hmem', h₁, hq₁, h₂, hq₂⟩
      · obtain ⟨_, _, _, _, sc', hl', -⟩ := sc.exists_next hp (hc.leads hmem)
        exact ih t (hc.leads hmem).lt h sc' hl' hq
      · cases hd : ps.isDisjunction p with
        | true =>
          obtain ⟨_, _, rfl⟩ := hc.eq_singleton hd
          cases List.mem_singleton.mp hmem
          cases List.mem_singleton.mp hmem'
          exact (hslot rfl).elim
        | false =>
          have hr₁ := hreach hmem h₁ hq₁
          have hr₂ := hreach hmem' h₂ hq₂
          rw [next_eq_of_not_isDisjunction sc hd] at hr₁ hr₂
          exact sc.contested hp hd (hc.leads hmem) (hc.leads hmem') hslot hr₁ hr₂

end Plan

namespace PatternSet

variable {ps : PatternSet s}

/-- No link of a star is followed. -/
theorem follows_nil_of_isStar {p : PatternId} (hp : ps.isStar p = true) : ps.Follows p [] := by
  have hfilter : ((ps.query p).links.filter fun l => l.kind ≠ .abnormal) = [] := by
    refine List.filter_eq_nil_iff.mpr fun l hl hk => ?_
    exact not_leads_of_isStar hp ⟨l, hl, by simpa using hk, rfl, rfl⟩
  have hd : ¬ ps.isDisjunction p = true := by
    rw [isStar] at hp
    rw [isDisjunction]
    cases hagent : (ps.get p).agent <;> simp [hagent, Agent.isStar, Agent.isDisjunction] at hp ⊢
  rw [Follows, if_neg hd, hfilter]
  exact List.Perm.refl _

theorem exists_follows (hs : s.WellFormed) (hps : ps.WellFormed) (p : PatternId) :
    ∃ chosen, ps.Follows p chosen := by
  cases hd : ps.isDisjunction p with
  | false =>
    refine ⟨((ps.query p).links.filter fun l => l.kind ≠ .abnormal).map fun l =>
      (l.slot, l.target.val), ?_⟩
    rw [Follows, if_neg (by simp [hd])]
  | true =>
    have hfits := hps.fits hs p
    have hd' := hd
    rw [isDisjunction, ← isDisjunction_pattern] at hd'
    cases hagent : (ps.pattern p).agent with
    | matchAny qs =>
      rw [hagent] at hfits
      obtain ⟨q, rest, rfl⟩ := List.exists_cons_of_ne_nil hfits.1
      have hlead : ps.Leads p 0 q.val := by
        refine ⟨⟨0, q, .normal⟩, ?_, by simp, rfl, rfl⟩
        simp [query, hagent, Agent.query]
      exact ⟨[(0, q.val)], by rw [Follows, if_pos hd]; exact ⟨0, q.val, hlead, rfl⟩⟩
    | _ => simp [hagent, Agent.isDisjunction] at hd'

end PatternSet

theorem Plan.exists_walksAll {ps : PatternSet s} {plan : Plan} {i : Nat} {p : PatternId}
    {chosen : List (Nat × PatternId)} (h : ∀ slot q, (slot, q) ∈ chosen →
      ∃ keys, plan.Walks ps (plan.next i p slot) (.child p slot) q keys) :
    ∃ keys, plan.WalksAll ps i p chosen keys := by
  induction chosen with
  | nil => exact ⟨[], .nil⟩
  | cons x chosen ih =>
    obtain ⟨slot, q⟩ := x
    obtain ⟨keys, hfirst⟩ := h slot q (by simp)
    obtain ⟨keys', hrest⟩ := ih fun slot q hmem => h slot q (by simp [hmem])
    exact ⟨keys ++ keys', .cons hfirst hrest⟩

/-- Every link that may be followed starts a walk. -/
theorem Plan.Scoped.exists_walks (hs : s.WellFormed) {ps : PatternSet s} (hps : ps.WellFormed)
    {plan : Plan} {i : Nat} {keyed new : List PatternId} {entry link : LinkId} {seed p : PatternId}
    (sc : plan.Scoped ps i keyed entry seed new) (hl : Considered ps new entry seed link p) :
    ∃ keys, plan.Walks ps i link p keys := by
  induction p using Nat.strongRecOn generalizing i link keyed entry seed new with
  | ind p ih =>
    cases hk : (plan.scope i).isKeyer link with
    | false => exact ⟨[], .residual hk⟩
    | true =>
      obtain ⟨chosen, hc⟩ := ps.exists_follows hs hps p
      have hall : ∃ keys, plan.WalksAll ps i p chosen keys := by
        refine Plan.exists_walksAll fun slot q hmem => ?_
        have hlead := hc.leads hmem
        obtain ⟨_, _, _, _, sc', hl', -⟩ := sc.exists_next (sc.mem_of_isKeyer hl hk) hlead
        exact ih q hlead.lt sc' hl'
      obtain ⟨keys, h⟩ := hall
      exact ⟨p :: keys, .keyed hk hc h⟩

/-! ## Contested patterns are keyed twice -/

namespace Plan

variable {ps : PatternSet s} {plan : Plan} {i : Nat} {keyed new keys : List PatternId}
  {entry link l : LinkId} {seed p q : PatternId} {chosen : List (Nat × PatternId)} {slot : Nat}

theorem mem_of_leads {t : PatternId} (hc : ps.Follows p chosen) (hd : ps.isDisjunction p = false)
    (hl : ps.Leads p slot t) : (slot, t) ∈ chosen := by
  rw [PatternSet.Follows, if_neg (by simp [hd])] at hc
  obtain ⟨l, hl, hk, rfl, rfl⟩ := hl
  exact hc.mem_iff.mpr (List.mem_map.mpr ⟨l, List.mem_filter.mpr ⟨hl, by simpa using hk⟩, rfl⟩)

theorem WalksAll.exists_subset {t : PatternId} (h : plan.WalksAll ps i p chosen keys)
    (hmem : (slot, t) ∈ chosen) :
    ∃ keys', plan.Walks ps (plan.next i p slot) (.child p slot) t keys' ∧ keys' ⊆ keys := by
  induction chosen generalizing keys with
  | nil => cases hmem
  | cons x chosen ih =>
    cases h with
    | cons h hrest =>
      rcases List.mem_cons.mp hmem with heq | hmem
      · cases heq
        exact ⟨_, h, List.subset_append_left _ _⟩
      · obtain ⟨keys', h', hsub⟩ := ih hrest hmem
        exact ⟨keys', h', List.subset_append_of_subset_right _ hsub⟩

/-- A walk keys all that keyers of its scope lead to. -/
theorem Walks.mem_of_within (h : plan.Walks ps i link p keys)
    (sc : plan.Scoped ps i keyed entry seed new) (hw : Within ps (plan.scope i) link p l q) :
    q ∈ keys := by
  induction p using Nat.strongRecOn generalizing link keys with
  | ind p ih =>
    cases h with
    | residual hk =>
      rw [hw.isKeyer_first] at hk
      cases hk
    | keyed hk hc h =>
      rcases hw.eq_or_step with ⟨-, rfl⟩ | ⟨slot, t, hd, hl, hw⟩
      · simp
      · obtain ⟨keys', h', hsub⟩ := h.exists_subset (mem_of_leads hc hd hl)
        rw [next_eq_of_not_isDisjunction sc hd] at h'
        exact List.mem_cons_of_mem _ (hsub (ih t hl.lt h' hw))

/-- The patterns of `keys` count `q` at least as often as `f` does at the patterns of `R`, taken one
or two at a time. -/
def Carries (f : PatternId → List PatternId) (q : PatternId) (R : PatternId → Prop)
    (keys : List PatternId) : Prop :=
  (∀ m, R m → (f m).count q ≤ keys.count q) ∧
    ∀ m m', R m → R m' → m ≠ m' → (f m).count q + (f m').count q ≤ keys.count q

theorem Carries.append {f : PatternId → List PatternId} {R R' : PatternId → Prop}
    {keys' : List PatternId} (h : Carries f q R keys) (h' : Carries f q R' keys') :
    Carries f q (fun m => R m ∨ R' m) (keys ++ keys') := by
  constructor
  · rintro m (hm | hm)
    · have := h.1 m hm
      rw [List.count_append]
      omega
    · have := h'.1 m hm
      rw [List.count_append]
      omega
  · rintro m m' (hm | hm) (hm' | hm') hne
    · have := h.2 m m' hm hm' hne
      rw [List.count_append]
      omega
    · have := h.1 m hm
      have := h'.1 m' hm'
      rw [List.count_append]
      omega
    · have := h'.1 m hm
      have := h.1 m' hm'
      rw [List.count_append]
      omega
    · have := h'.2 m m' hm hm' hne
      rw [List.count_append]
      omega

theorem Carries.mono {f : PatternId → List PatternId} {R R' : PatternId → Prop}
    {keys' : List PatternId} (h : Carries f q R keys) (hR : ∀ m, R' m → R m)
    (hkeys : keys.count q ≤ keys'.count q) : Carries f q R' keys' :=
  ⟨fun m hm => Nat.le_trans (h.1 m (hR m hm)) hkeys,
    fun m m' hm hm' hne => Nat.le_trans (h.2 m m' (hR m hm) (hR m' hm') hne) hkeys⟩

/-- At every disjunction `m` among `new` there is a walk that keys `f m`. -/
def Strategy (ps : PatternSet s) (plan : Plan) (i : Nat) (new : List PatternId)
    (f : PatternId → List PatternId) : Prop :=
  ∀ m ∈ new, ps.isDisjunction m = true → ∃ slot t, ps.Leads m slot t ∧
    plan.Walks ps (plan.next i m slot) (.child m slot) t (f m)

theorem Strategy.update {f : PatternId → List PatternId} (hf : plan.Strategy ps i new f)
    {m t : PatternId} (ht : ps.Leads m slot t)
    (hwalks : plan.Walks ps (plan.next i m slot) (.child m slot) t keys) :
    plan.Strategy ps i new (Function.update f m keys) := by
  intro m' hm' hd
  by_cases h : m' = m
  · subst h
    rw [Function.update_self]
    exact ⟨slot, t, ht, hwalks⟩
  · rw [Function.update_of_ne h]
    exact hf m' hm' hd

theorem Scoped.exists_strategy (hs : s.WellFormed) (hps : ps.WellFormed)
    (sc : plan.Scoped ps i keyed entry seed new) : ∃ f, plan.Strategy ps i new f := by
  have hany (m) (hm : m ∈ new ∧ ps.isDisjunction m = true) : ∃ keys slot t, ps.Leads m slot t ∧
      plan.Walks ps (plan.next i m slot) (.child m slot) t keys := by
    obtain ⟨chosen, hc⟩ := ps.exists_follows hs hps m
    obtain ⟨slot, t, rfl⟩ := hc.eq_singleton hm.2
    have hlead := hc.leads (List.mem_singleton.mpr rfl)
    obtain ⟨_, _, _, _, sc', hl', -⟩ := sc.exists_next hm.1 hlead
    obtain ⟨keys, hwalks⟩ := sc'.exists_walks hs hps hl'
    exact ⟨keys, slot, t, hlead, hwalks⟩
  choose! f hf using hany
  exact ⟨f, fun m hm hd => hf m ⟨hm, hd⟩⟩

/-- Where a strategy says how to go on at a disjunction, a walk from there carries it. -/
theorem Strategy.exists_carries {f : PatternId → List PatternId} (hf : plan.Strategy ps i new f)
    (hp : p ∈ new) (hd : ps.isDisjunction p = true) (hk : (plan.scope i).isKeyer link = true) :
    ∃ keys, plan.Walks ps i link p keys ∧ Carries f q
      (fun m => ps.isDisjunction m = true ∧ ∃ l, Within ps (plan.scope i) link p l m) keys := by
  obtain ⟨slot, t, hlead, hwalks⟩ := hf p hp hd
  have hfollows : ps.Follows p [(slot, t)] := by
    rw [PatternSet.Follows, if_pos hd]
    exact ⟨slot, t, hlead, rfl⟩
  have hall := WalksAll.cons hwalks .nil
  rw [List.append_nil] at hall
  have hself {m l} (h : Within ps (plan.scope i) link p l m) : m = p := by
    rcases h.eq_or_step with ⟨-, rfl⟩ | ⟨_, _, hd', -⟩
    · rfl
    · rw [hd] at hd'
      cases hd'
  refine ⟨p :: f p, .keyed hk hfollows hall, ?_, ?_⟩
  · rintro m ⟨-, l, h⟩
    rw [hself h]
    exact List.count_le_count_cons
  · rintro m m' ⟨-, l, h⟩ ⟨-, l', h'⟩ hne
    exact (hne ((hself h).trans (hself h').symm)).elim

/-- Links of one pattern carry together what each of them carries. -/
theorem exists_carries_all {f : PatternId → List PatternId}
    (h : ∀ slot t, (slot, t) ∈ chosen →
      ∃ keys, plan.Walks ps (plan.next i p slot) (.child p slot) t keys ∧ Carries f q
        (fun m =>
          ps.isDisjunction m = true ∧ ∃ l, Within ps (plan.scope i) (.child p slot) t l m) keys) :
    ∃ keys, plan.WalksAll ps i p chosen keys ∧ Carries f q
      (fun m => ps.isDisjunction m = true ∧ ∃ slot t l, (slot, t) ∈ chosen ∧
        Within ps (plan.scope i) (.child p slot) t l m) keys := by
  induction chosen with
  | nil => exact ⟨[], .nil, by simp [Carries]⟩
  | cons x chosen ih =>
    obtain ⟨slot, t⟩ := x
    obtain ⟨keys, hwalks, hcarries⟩ := h slot t (by simp)
    obtain ⟨keys', hwalks', hcarries'⟩ := ih fun slot t hmem => h slot t (by simp [hmem])
    refine ⟨keys ++ keys', .cons hwalks hwalks', ?_⟩
    refine (hcarries.append hcarries').mono ?_ (Nat.le_refl _)
    rintro m ⟨hm, slot', t', l, hmem, hwithin⟩
    rcases List.mem_cons.mp hmem with heq | hmem
    · cases heq
      exact .inl ⟨hm, l, hwithin⟩
    · exact .inr ⟨hm, slot', t', l, hmem, hwithin⟩

/-- There is a walk of a scope that goes on at every disjunction as a strategy says. -/
theorem Scoped.exists_carries (hs : s.WellFormed) (hps : ps.WellFormed)
    (sc : plan.Scoped ps i keyed entry seed new) {f : PatternId → List PatternId}
    (hf : plan.Strategy ps i new f)
    (hl : Considered ps new entry seed link p) :
    ∃ keys, plan.Walks ps i link p keys ∧ Carries f q
      (fun m => ps.isDisjunction m = true ∧ ∃ l, Within ps (plan.scope i) link p l m) keys := by
  induction p using Nat.strongRecOn generalizing link with
  | ind p ih =>
    cases hk : (plan.scope i).isKeyer link with
    | false =>
      have hnone (l m) (h : Within ps (plan.scope i) link p l m) : False := by
        rw [h.isKeyer_first] at hk
        cases hk
      refine ⟨[], .residual hk, ?_, ?_⟩
      · rintro m ⟨-, l, h⟩
        exact (hnone l m h).elim
      · rintro m - ⟨-, l, h⟩
        exact (hnone l m h).elim
    | true =>
      have hp := sc.mem_of_isKeyer hl hk
      cases hd : ps.isDisjunction p with
      | true => exact hf.exists_carries hp hd hk
      | false =>
        obtain ⟨chosen, hc⟩ := ps.exists_follows hs hps p
        obtain ⟨keys, hwalks, hcarries⟩ := exists_carries_all fun slot t hmem => by
          rw [next_eq_of_not_isDisjunction sc hd]
          exact ih t (hc.leads hmem).lt (.child hp hd (hc.leads hmem))
        refine ⟨p :: keys, .keyed hk hc hwalks, hcarries.mono ?_ List.count_le_count_cons⟩
        rintro m ⟨hm, l, hwithin⟩
        rcases hwithin.eq_or_step with ⟨-, rfl⟩ | ⟨slot, t, -, hlead, hwithin⟩
        · rw [hd] at hm
          cases hm
        · exact ⟨hm, slot, t, l, mem_of_leads hc hd hlead, hwithin⟩

theorem Reaches.exists_walks (hs : s.WellFormed) (hps : ps.WellFormed)
    (h : plan.Reaches ps i link p q) (sc : plan.Scoped ps i keyed entry seed new)
    (hl : Considered ps new entry seed link p) :
    ∃ keys, plan.Walks ps i link p keys ∧ q ∈ keys := by
  induction h generalizing keyed entry seed new with
  | within h =>
    obtain ⟨keys, hwalks⟩ := sc.exists_walks hs hps hl
    exact ⟨keys, hwalks, hwalks.mem_of_within sc h⟩
  | @enter i j slot _ l _ m t q h hj ht _ ih =>
    obtain ⟨-, hd, new', sc'⟩ := sc.scoped_of_disjunct hj ht
    obtain ⟨keys, hwalks, hq⟩ := ih sc' .seed
    rw [← next_eq_of_disjunct hj] at hwalks
    obtain ⟨f, hf⟩ := sc.exists_strategy hs hps
    obtain ⟨keys', hwalks', hcarries⟩ := sc.exists_carries (q := q) hs hps (hf.update ht hwalks) hl
    refine ⟨keys', hwalks', List.count_pos_iff.mp (Nat.lt_of_lt_of_le ?_ (hcarries.1 m ⟨hd, l, h⟩))⟩
    rw [Function.update_self]
    exact List.count_pos_iff.mpr hq

/-- What a walk of a scope keys is keyed by a walk of the whole plan. -/
theorem Open.exists_walks (hs : s.WellFormed) (hps : ps.WellFormed) {root : PatternId}
    (hopen : (amid ps keyed root).Open i) :
    ∃ keyed' entry seed new, (amid ps keyed root).Scoped ps i keyed' entry seed new ∧
      ∀ keys, (amid ps keyed root).Walks ps i entry seed keys →
        ∃ keys', (amid ps keyed root).Walks ps 0 .root root keys' ∧
          keys.count q ≤ keys'.count q := by
  induction hopen with
  | start =>
    obtain ⟨new, sc⟩ := (entered_amid ps keyed root).scoped
    exact ⟨keyed, .root, root, new, sc, fun keys h => ⟨keys, h, Nat.le_refl _⟩⟩
  | @disjunct i j slot m _ hj ih =>
    obtain ⟨keyed', entry, seed, new, sc, hup⟩ := ih
    obtain ⟨hm, hd, t, ht, hentered⟩ := sc.of_disjunct hj
    obtain ⟨new', sc'⟩ := hentered.scoped
    refine ⟨_, _, _, new', sc', fun keys hwalks => ?_⟩
    rw [← next_eq_of_disjunct hj] at hwalks
    obtain ⟨f, hf⟩ := sc.exists_strategy hs hps
    obtain ⟨keys', hwalks', hcarries⟩ :=
      sc.exists_carries (q := q) hs hps (hf.update ht hwalks) .seed
    obtain ⟨l, hwithin⟩ := sc.exists_within hm
    have hle := hcarries.1 m ⟨hd, l, hwithin⟩
    rw [Function.update_self] at hle
    obtain ⟨keys'', hwalks'', hle'⟩ := hup keys' hwalks'
    exact ⟨keys'', hwalks'', Nat.le_trans hle hle'⟩

/-- A pattern is contested if and only if some walk of the plan keys it twice. -/
theorem contested_iff (hs : s.WellFormed) (hps : ps.WellFormed) {root : PatternId} :
    (amid ps keyed root).Contested ps q ↔
      ∃ keys, (amid ps keyed root).Walks ps 0 .root root keys ∧ 2 ≤ keys.count q := by
  constructor
  · rintro ⟨i, m, m', hopen, hne, ⟨slot, j, t, hj, ht, hr⟩, ⟨slot', j', t', hj', ht', hr'⟩⟩
    obtain ⟨keyed', entry, seed, new, sc, hup⟩ := hopen.exists_walks (q := q) hs hps
    have hwalk {m slot j t} (hj : ((amid ps keyed root).scope i).disjunct? m slot = some j)
        (ht : ps.Leads m slot t) (hr : (amid ps keyed root).Reaches ps j (.child m slot) t q) :
        m ∈ new ∧ ps.isDisjunction m = true ∧ ∃ keys, 0 < keys.count q ∧
          (amid ps keyed root).Walks ps ((amid ps keyed root).next i m slot)
          (.child m slot) t keys := by
      obtain ⟨hm, hd, new', sc'⟩ := sc.scoped_of_disjunct hj ht
      obtain ⟨keys, hwalks, hq⟩ := hr.exists_walks hs hps sc' .seed
      refine ⟨hm, hd, keys, List.count_pos_iff.mpr hq, ?_⟩
      rwa [next_eq_of_disjunct hj]
    obtain ⟨hm, hd, keys, hpos, hwalks⟩ := hwalk hj ht hr
    obtain ⟨hm', hd', keys', hpos', hwalks'⟩ := hwalk hj' ht' hr'
    obtain ⟨f, hf⟩ := sc.exists_strategy hs hps
    obtain ⟨keys₀, hwalks₀, hcarries⟩ :=
      sc.exists_carries (q := q) hs hps ((hf.update ht hwalks).update ht' hwalks') .seed
    obtain ⟨l, hwithin⟩ := sc.exists_within hm
    obtain ⟨l', hwithin'⟩ := sc.exists_within hm'
    have hle := hcarries.2 m m' ⟨hd, l, hwithin⟩ ⟨hd', l', hwithin'⟩ hne
    rw [Function.update_self, Function.update_of_ne hne, Function.update_self] at hle
    obtain ⟨keys₁, hwalks₁, hle'⟩ := hup keys₀ hwalks₀
    exact ⟨keys₁, hwalks₁, by omega⟩
  · rintro ⟨keys, hwalks, hcount⟩
    obtain ⟨new, sc⟩ := (entered_amid ps keyed root).scoped
    exact hwalks.contested sc .seed hcount

end Plan

end Espalier
