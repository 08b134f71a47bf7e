import Espalier.Proofs.Query
import Espalier.Search.Plan
import Mathlib.Data.List.Forall2
import Mathlib.Data.List.Infix
import Mathlib.Data.List.Nodup

/-!
# What a plan keys

An election keys every pattern that can be reached from its seed without going through a
disjunction, each by one of the links that lead to it.  A plan consists of elections, one for each
scope: where a disjunct is taken, the election of its scope starts with all that is keyed around it.
-/

namespace Espalier

variable {s : Schema}

namespace PatternSet

/-- The pattern `p` has a link at `slot` to `q` that is not abnormal. -/
def Leads (ps : PatternSet s) (p : PatternId) (slot : Nat) (q : PatternId) : Prop :=
  ∃ l ∈ (ps.query p).links, l.kind ≠ .abnormal ∧ l.slot = slot ∧ l.target.val = q

/-- The pattern `p` has an abnormal link at `slot` to `q`. -/
def Guards (ps : PatternSet s) (p : PatternId) (slot : Nat) (q : PatternId) : Prop :=
  ∃ l ∈ (ps.query p).links, l.kind = .abnormal ∧ l.slot = slot ∧ l.target.val = q

def isDisjunction (ps : PatternSet s) (p : PatternId) : Bool := (ps.get p).agent.isDisjunction

variable {ps : PatternSet s} {p q q' : PatternId} {slot : Nat}

theorem link_ext {l l' : Link (Fin p)} (hl : l ∈ (ps.query p).links)
    (hl' : l' ∈ (ps.query p).links) (h : l.slot = l'.slot) : l = l' :=
  List.inj_on_of_nodup_map (nodup_slot_query _) hl hl' h

theorem Leads.lt (h : ps.Leads p slot q) : q < p := by
  obtain ⟨l, -, -, -, rfl⟩ := h
  exact l.target.isLt

theorem Leads.unique (h : ps.Leads p slot q) (h' : ps.Leads p slot q') : q = q' := by
  obtain ⟨l, hl, -, rfl, rfl⟩ := h
  obtain ⟨l', hl', -, hslot, rfl⟩ := h'
  rw [link_ext hl hl' hslot.symm]

theorem Guards.unique (h : ps.Guards p slot q) (h' : ps.Guards p slot q') : q = q' := by
  obtain ⟨l, hl, -, rfl, rfl⟩ := h
  obtain ⟨l', hl', -, hslot, rfl⟩ := h'
  rw [link_ext hl hl' hslot.symm]

end PatternSet

/-! ## Elections -/

/-- A link that an election comes to: the one it starts with, or one of a pattern among `new` that
is no disjunction. -/
inductive Considered (ps : PatternSet s) (new : List PatternId) (link : LinkId) (seed : PatternId) :
    LinkId → PatternId → Prop where
  | seed : Considered ps new link seed link seed
  | child {p q : PatternId} {slot : Nat} (hp : p ∈ new) (hd : ps.isDisjunction p = false)
      (hl : ps.Leads p slot q) : Considered ps new link seed (.child p slot) q

theorem Considered.mono {ps : PatternSet s} {new new' : List PatternId} {link l : LinkId}
    {seed q : PatternId} (hsub : ∀ p ∈ new, p ∈ new') (h : Considered ps new link seed l q) :
    Considered ps new' link seed l q := by
  cases h with
  | seed => exact .seed
  | child hp hd hl => exact .child (hsub _ hp) hd hl

/-- An election under way from `seed`: it started with the patterns of `keyed` and has keyed those
of `new` as well; the links of `todo` are still to be followed. -/
structure Census (ps : PatternSet s) (keyed : List PatternId) (link : LinkId) (seed : PatternId)
    (e : Election seed) (new : List PatternId) (todo : List (LinkId × PatternId)) : Prop where
  keyed_eq : e.keyed = keyed ++ new
  nodup : new.Nodup
  fresh : ∀ p ∈ new, p ∉ keyed
  le_seed : ∀ p ∈ new, p ≤ seed
  keyers : List.Forall₂ (Considered ps new link seed) e.keyers new
  followed : ∀ l q, Considered ps new link seed l q → q ∈ e.keyed ∨ (l, q) ∈ todo
  considered : ∀ l q, (l, q) ∈ todo → Considered ps new link seed l q
  of_deferred : ∀ o ∈ e.deferred,
    o.pattern ∈ new ∧ ps.isDisjunction o.pattern = true ∧ ps.Leads o.pattern o.slot o.target.val
  deferred : ∀ p ∈ new, ps.isDisjunction p = true → ∀ slot q, ps.Leads p slot q →
    ∃ o ∈ e.deferred, o.pattern = p ∧ o.slot = slot ∧ o.target.val = q
  of_abnormal : ∀ o ∈ e.abnormal, o.pattern ∈ new ∧ ps.Guards o.pattern o.slot o.target.val
  abnormal : ∀ p ∈ new, ∀ slot q, ps.Guards p slot q →
    ∃ o ∈ e.abnormal, o.pattern = p ∧ o.slot = slot ∧ o.target.val = q

namespace Election

variable {ps : PatternSet s} {n m : Nat}

/-- The links of a level as pairs of numbers. -/
def flat (links : List (LinkId × Fin m)) : List (LinkId × PatternId) :=
  links.map fun (l, p) => (l, p.val)

@[simp] theorem flat_nil : flat ([] : List (LinkId × Fin m)) = [] := rfl

@[simp] theorem flat_cons (l : LinkId) (p : Fin m) (links : List (LinkId × Fin m)) :
    flat ((l, p) :: links) = (l, p.val) :: flat links := rfl

@[simp] theorem flat_append (xs ys : List (LinkId × Fin m)) :
    flat (xs ++ ys) = flat xs ++ flat ys :=
  List.map_append

/-- Links that lead out of a scope, by pattern and slot, with their targets. -/
def outs (os : List (Outlink n)) : List ((PatternId × Nat) × PatternId) :=
  os.map fun o => ((o.pattern, o.slot), o.target.val)

theorem outs_append (os os' : List (Outlink n)) : outs (os ++ os') = outs os ++ outs os' :=
  List.map_append

theorem mem_outs {o : Outlink n} {os : List (Outlink n)} :
    ((o.pattern, o.slot), o.target.val) ∈ outs os ↔ o ∈ os := by
  constructor
  · intro h
    obtain ⟨⟨pattern, slot, target⟩, ho', heq⟩ := List.mem_map.mp h
    obtain ⟨pattern', slot', target'⟩ := o
    simp only [Prod.mk.injEq] at heq
    obtain ⟨⟨rfl, rfl⟩, htarget⟩ := heq
    rwa [Fin.ext htarget] at ho'
  · intro h
    exact List.mem_map_of_mem h

section SortLinks

variable {d : Bool} {p : Fin (m + 1)} {h : m ≤ n} {ls : List (Link (Fin p.val))} {e : Election n}

theorem keyed_sortLinks : (sortLinks d p h ls e).1.keyed = e.keyed := by
  induction ls generalizing e with
  | nil => rfl
  | cons l ls ih =>
    rw [sortLinks]
    split
    · exact ih
    · split <;> exact ih

theorem keyers_sortLinks : (sortLinks d p h ls e).1.keyers = e.keyers := by
  induction ls generalizing e with
  | nil => rfl
  | cons l ls ih =>
    rw [sortLinks]
    split
    · exact ih
    · split <;> exact ih

/-- The abnormal links are set aside. -/
theorem outs_abnormal_sortLinks : outs (sortLinks d p h ls e).1.abnormal = outs e.abnormal ++
    (ls.filter fun l => l.kind = .abnormal).map fun l => ((p.val, l.slot), l.target.val) := by
  induction ls generalizing e with
  | nil => simp [sortLinks]
  | cons l ls ih =>
    rw [sortLinks]
    split
    next hk =>
      rw [ih, outs_append, List.filter_cons_of_pos (by simpa using hk)]
      simp [outs]
    next hk =>
      rw [List.filter_cons_of_neg (by simpa using hk)]
      split <;> exact ih

/-- The other links are set aside if the pattern is a disjunction. -/
theorem outs_deferred_sortLinks : outs (sortLinks d p h ls e).1.deferred = outs e.deferred ++
    if d then (ls.filter fun l => l.kind ≠ .abnormal).map fun l => ((p.val, l.slot), l.target.val)
    else [] := by
  induction ls generalizing e with
  | nil => simp [sortLinks]
  | cons l ls ih =>
    rw [sortLinks]
    split
    next hk =>
      rw [List.filter_cons_of_neg (by simpa using hk)]
      exact ih
    next hk =>
      rw [List.filter_cons_of_pos (by simpa using hk)]
      split
      next hd =>
        rw [ih, outs_append, if_pos hd]
        simp [outs]
      next hd =>
        dsimp only
        rw [ih, if_neg hd]

/-- The others are followed if it is none. -/
theorem flat_sortLinks : flat (sortLinks d p h ls e).2 =
    if d then []
    else (ls.filter fun l => l.kind ≠ .abnormal).map fun l =>
    (.child p.val l.slot, l.target.val) := by
  induction ls generalizing e with
  | nil => simp [sortLinks]
  | cons l ls ih =>
    rw [sortLinks]
    split
    next hk =>
      rw [List.filter_cons_of_neg (by simpa using hk)]
      exact ih
    next hk =>
      rw [List.filter_cons_of_pos (by simpa using hk)]
      split
      next hd => rw [ih, if_pos hd]
      next hd =>
        dsimp only
        rw [flat_cons, ih, if_neg hd, List.map_cons]

theorem mem_abnormal_sortLinks {o : Outlink n} : o ∈ (sortLinks d p h ls e).1.abnormal ↔
    o ∈ e.abnormal ∨ ∃ l ∈ ls, l.kind = .abnormal ∧
      o.pattern = p.val ∧ o.slot = l.slot ∧ o.target.val = l.target.val := by
  rw [← mem_outs, outs_abnormal_sortLinks, List.mem_append, mem_outs]
  grind

theorem mem_deferred_sortLinks {o : Outlink n} : o ∈ (sortLinks d p h ls e).1.deferred ↔
    o ∈ e.deferred ∨ d = true ∧ ∃ l ∈ ls, l.kind ≠ .abnormal ∧
      o.pattern = p.val ∧ o.slot = l.slot ∧ o.target.val = l.target.val := by
  rw [← mem_outs, outs_deferred_sortLinks, List.mem_append, mem_outs]
  grind

theorem mem_next_sortLinks {x : LinkId} {q : PatternId} :
    (x, q) ∈ flat (sortLinks d p h ls e).2 ↔
      d = false ∧ ∃ l ∈ ls, l.kind ≠ .abnormal ∧ x = .child p.val l.slot ∧ q = l.target.val := by
  rw [flat_sortLinks]
  grind

end SortLinks

end Election

namespace Census

variable {ps : PatternSet s} {keyed new : List PatternId} {link : LinkId} {seed : PatternId}
  {e : Election seed} {todo : List (LinkId × PatternId)} {m : Nat}

theorem congr_todo {todo' : List (LinkId × PatternId)} (hmem : ∀ x, x ∈ todo ↔ x ∈ todo')
    (c : Census ps keyed link seed e new todo) : Census ps keyed link seed e new todo' where
  __ := c
  followed l q hl := (c.followed l q hl).imp_right (hmem (l, q)).mp
  considered l q hl := c.considered l q ((hmem (l, q)).mpr hl)

/-- A link to a pattern that is keyed already needs no following. -/
theorem skip {l : LinkId} {p : PatternId} (hp : p ∈ e.keyed)
    (c : Census ps keyed link seed e new ((l, p) :: todo)) :
    Census ps keyed link seed e new todo where
  __ := c
  followed l' q hl := by
    rcases c.followed l' q hl with hq | hq
    · exact .inl hq
    · rcases List.mem_cons.mp hq with heq | hq
      · cases heq
        exact .inl hp
      · exact .inr hq
  considered l' q hl := c.considered l' q (List.mem_cons_of_mem _ hl)

/-- A link to a pattern that is not keyed yet is elected its keyer. -/
theorem elect {l : LinkId} {p : Fin (m + 1)} (h : m ≤ seed) (hp : p.val ∉ e.keyed)
    (c : Census ps keyed link seed e new ((l, p.val) :: todo)) :
    let e' : Election seed := { e with keyers := e.keyers ++ [l], keyed := e.keyed ++ [p.val] }
    let r := Election.sortLinks (ps.get p.val).agent.isDisjunction p h (ps.query p.val).links e'
    Census ps keyed link seed r.1 (new ++ [p.val]) (Election.flat r.2 ++ todo) := by
  intro e' r
  have hmono : ∀ {l q}, Considered ps new link seed l q →
      Considered ps (new ++ [p.val]) link seed l q :=
    Considered.mono fun q hq => List.mem_append_left _ hq
  have hfresh : p.val ∉ keyed ∧ p.val ∉ new := by
    rw [c.keyed_eq, List.mem_append] at hp
    exact not_or.mp hp
  have hlt (l : Link (Fin p.val)) : l.target.val < seed :=
    Nat.lt_of_lt_of_le l.target.isLt (Nat.le_trans (Nat.le_of_lt_succ p.isLt) h)
  constructor
  case keyed_eq =>
    rw [Election.keyed_sortLinks]
    change e.keyed ++ [p.val] = _
    rw [c.keyed_eq, List.append_assoc]
  case nodup => exact List.nodup_append.mpr ⟨c.nodup, by simp, by grind⟩
  case fresh =>
    intro q hq
    rcases List.mem_append.mp hq with hq | hq
    · exact c.fresh q hq
    · exact List.mem_singleton.mp hq ▸ hfresh.1
  case le_seed =>
    intro q hq
    rcases List.mem_append.mp hq with hq | hq
    · exact c.le_seed q hq
    · rw [List.mem_singleton.mp hq]
      exact Nat.le_trans (Nat.le_of_lt_succ p.isLt) h
  case keyers =>
    rw [Election.keyers_sortLinks]
    refine List.rel_append (c.keyers.imp fun _ _ => hmono) ?_
    exact .cons (hmono (c.considered _ _ (by simp))) .nil
  case followed =>
    -- Links of what was keyed before were settled or waiting; those of `p` wait from now on.
    intro l' q hl
    rw [Election.keyed_sortLinks]
    have hold (hl : Considered ps new link seed l' q) :
        q ∈ e'.keyed ∨ (l', q) ∈ Election.flat r.2 ++ todo := by
      rcases c.followed l' q hl with hq | hq
      · exact .inl (List.mem_append_left _ hq)
      · rcases List.mem_cons.mp hq with heq | hq
        · cases heq
          exact .inl (List.mem_append_right _ (by simp))
        · exact .inr (List.mem_append_right _ hq)
    cases hl with
    | seed => exact hold .seed
    | child hq hd hlead =>
      rcases List.mem_append.mp hq with hq | hq
      · exact hold (.child hq hd hlead)
      · obtain rfl := List.mem_singleton.mp hq
        obtain ⟨l, hl, hk, rfl, rfl⟩ := hlead
        refine .inr (List.mem_append_left _ (Election.mem_next_sortLinks.mpr ?_))
        exact ⟨hd, l, hl, hk, rfl, rfl⟩
  case considered =>
    intro l' q hl
    rcases List.mem_append.mp hl with hl | hl
    · obtain ⟨hd, l, hlinks, hk, rfl, rfl⟩ := Election.mem_next_sortLinks.mp hl
      exact .child (by simp) hd ⟨l, hlinks, hk, rfl, rfl⟩
    · exact hmono (c.considered l' q (List.mem_cons_of_mem _ hl))
  case of_deferred =>
    intro o ho
    rcases Election.mem_deferred_sortLinks.mp ho with ho | ⟨hd, l, hl, hk, hpattern, hslot, htarget⟩
    · exact (c.of_deferred o ho).imp_left (List.mem_append_left _)
    · rw [hpattern]
      exact ⟨by simp, hd, l, hl, hk, hslot.symm, htarget.symm⟩
  case deferred =>
    intro q hq hd slot t hlead
    rcases List.mem_append.mp hq with hq | hq
    · obtain ⟨o, ho, hrest⟩ := c.deferred q hq hd slot t hlead
      exact ⟨o, Election.mem_deferred_sortLinks.mpr (.inl ho), hrest⟩
    · obtain rfl := List.mem_singleton.mp hq
      obtain ⟨l, hl, hk, rfl, rfl⟩ := hlead
      refine ⟨⟨p.val, l.slot, ⟨l.target.val, hlt l⟩⟩, ?_, rfl, rfl, rfl⟩
      exact Election.mem_deferred_sortLinks.mpr (.inr ⟨hd, l, hl, hk, rfl, rfl, rfl⟩)
  case of_abnormal =>
    intro o ho
    rcases Election.mem_abnormal_sortLinks.mp ho with ho | ⟨l, hl, hk, hpattern, hslot, htarget⟩
    · exact (c.of_abnormal o ho).imp_left (List.mem_append_left _)
    · rw [hpattern]
      exact ⟨by simp, l, hl, hk, hslot.symm, htarget.symm⟩
  case abnormal =>
    intro q hq slot t hguard
    rcases List.mem_append.mp hq with hq | hq
    · obtain ⟨o, ho, hrest⟩ := c.abnormal q hq slot t hguard
      exact ⟨o, Election.mem_abnormal_sortLinks.mpr (.inl ho), hrest⟩
    · obtain rfl := List.mem_singleton.mp hq
      obtain ⟨l, hl, hk, rfl, rfl⟩ := hguard
      refine ⟨⟨p.val, l.slot, ⟨l.target.val, hlt l⟩⟩, ?_, rfl, rfl, rfl⟩
      exact Election.mem_abnormal_sortLinks.mpr (.inr ⟨l, hl, hk, rfl, rfl, rfl⟩)

/-- One level keys the targets of its links and leaves those of the next. -/
theorem level {h : m ≤ seed} {links : List (LinkId × Fin (m + 1))}
    (c : Census ps keyed link seed e new (Election.flat links ++ todo)) :
    ∃ new', Census ps keyed link seed (Election.level ps h links e).1 new'
      (Election.flat (Election.level ps h links e).2 ++ todo) := by
  induction links generalizing e new todo with
  | nil => exact ⟨new, c⟩
  | cons x links ih =>
    obtain ⟨l, p⟩ := x
    rw [Election.level]
    split
    next hp => exact ih (c.skip hp)
    next hp =>
      have hstep := c.elect h hp
      dsimp only at hstep ⊢
      generalize Election.sortLinks _ p h _ _ = r at hstep ⊢
      have hmem : ∀ x, x ∈ Election.flat r.2 ++ (Election.flat links ++ todo) ↔
          x ∈ Election.flat links ++ (Election.flat r.2 ++ todo) := by
        simp [or_left_comm]
      obtain ⟨new', c'⟩ := ih (hstep.congr_todo hmem)
      refine ⟨new', c'.congr_todo ?_⟩
      simp [or_left_comm]

theorem levels {k : Nat} {h : k ≤ seed + 1} {links : List (LinkId × Fin k)}
    (c : Census ps keyed link seed e new (Election.flat links)) :
    ∃ new', Census ps keyed link seed (Election.levels ps k h links e) new' [] := by
  induction k generalizing e new with
  | zero =>
    cases links with
    | nil => exact ⟨new, c⟩
    | cons x _ => exact x.2.elim0
  | succ k ih =>
    rw [← List.append_nil (Election.flat links)] at c
    obtain ⟨new', c'⟩ := c.level
    rw [List.append_nil] at c'
    exact ih c'

end Census

/-- An election comes to an end with every link followed. -/
theorem Election.census_run (ps : PatternSet s) (keyed : List PatternId) (link : LinkId)
    (seed : PatternId) :
    ∃ new, Census ps keyed link seed (Election.run ps keyed link seed) new [] := by
  have start : Census ps keyed link seed ⟨[], keyed, [], []⟩ [] [(link, seed)] := by
    constructor
    case followed =>
      intro l q hl
      cases hl with
      | seed => simp
      | child hp => simp at hp
    case considered =>
      intro l q hl
      obtain ⟨rfl, rfl⟩ : l = link ∧ q = seed := by simpa using hl
      exact .seed
    all_goals simp
  exact Census.levels start

/-! ## Scopes -/

theorem mem_of_lookup {α β : Type} [BEq α] [LawfulBEq α] {xs : List (α × β)} {a : α} {b : β}
    (h : xs.lookup a = some b) : (a, b) ∈ xs := by
  obtain ⟨before, after, rfl, -⟩ := List.lookup_eq_some_iff.mp h
  simp

theorem exists_lookup_of_mem {α β : Type} [BEq α] [LawfulBEq α] {xs : List (α × β)} {a : α} {b : β}
    (h : (a, b) ∈ xs) : ∃ b', xs.lookup a = some b' :=
  Option.isSome_iff_exists.mp (List.lookup_isSome_iff.mpr ⟨(a, b), h, by simp⟩)

/-- Scopes for the links of `ls` lie one after the other from the index `i` on, and the index of
each link's first scope is noted. -/
inductive Laid {n : Nat} (g : Outlink n → Nat → List Scope) :
    Nat → List (Outlink n) → List ((PatternId × Nat) × Nat) → List Scope → Prop where
  | nil {i : Nat} : Laid g i [] [] []
  | cons {i : Nat} {l : Outlink n} {ls : List (Outlink n)}
      {disjuncts : List ((PatternId × Nat) × Nat)} {below : List Scope}
      (h : Laid g (i + (g l i).length) ls disjuncts below) :
      Laid g i (l :: ls) (((l.pattern, l.slot), i) :: disjuncts) (g l i ++ below)

theorem laid_foldl {n : Nat} (g : Outlink n → Nat → List Scope) (index : Nat)
    (ls : List (Outlink n)) (disjuncts : List ((PatternId × Nat) × Nat)) (below : List Scope) :
    ∃ disjuncts' below', ls.foldl (fun (disjuncts, below) l =>
      (disjuncts ++ [((l.pattern, l.slot), index + 1 + below.length)],
        below ++ g l (index + 1 + below.length))) (disjuncts, below) =
      (disjuncts ++ disjuncts', below ++ below') ∧
      Laid g (index + 1 + below.length) ls disjuncts' below' := by
  induction ls generalizing disjuncts below with
  | nil => exact ⟨[], [], by simp, .nil⟩
  | cons l ls ih =>
    obtain ⟨disjuncts', below', heq, hlaid⟩ := ih
      (disjuncts ++ [((l.pattern, l.slot), index + 1 + below.length)])
      (below ++ g l (index + 1 + below.length))
    rw [List.length_append, ← Nat.add_assoc] at hlaid
    refine ⟨_, _, ?_, .cons hlaid⟩
    rw [List.foldl_cons, heq, List.append_assoc, List.append_assoc, List.singleton_append]

namespace Laid

variable {n i : Nat} {g : Outlink n → Nat → List Scope} {ls : List (Outlink n)}
  {disjuncts : List ((PatternId × Nat) × Nat)} {below : List Scope}

theorem map_fst (h : Laid g i ls disjuncts below) :
    disjuncts.map Prod.fst = ls.map fun l => (l.pattern, l.slot) := by
  induction h with
  | nil => rfl
  | cons _ ih => rw [List.map_cons, List.map_cons, ih]

theorem exists_mem {l : Outlink n} (h : Laid g i ls disjuncts below) (hl : l ∈ ls) :
    ∃ j, ((l.pattern, l.slot), j) ∈ disjuncts := by
  have hkey : (l.pattern, l.slot) ∈ disjuncts.map Prod.fst := by
    rw [h.map_fst]
    exact List.mem_map_of_mem hl
  obtain ⟨⟨_, j⟩, hj, rfl⟩ := List.mem_map.mp hkey
  exact ⟨j, hj⟩

/-- At the index that is noted for a link its scopes begin. -/
theorem of_mem {x : (PatternId × Nat) × Nat} (h : Laid g i ls disjuncts below)
    (hx : x ∈ disjuncts) :
    ∃ l ∈ ls, ∃ k, x = ((l.pattern, l.slot), i + k) ∧ g l (i + k) <+: below.drop k := by
  induction h with
  | nil => cases hx
  | @cons i l ls disjuncts below _ ih =>
    rcases List.mem_cons.mp hx with rfl | hx
    · exact ⟨l, List.mem_cons_self, 0, rfl, List.prefix_append _ _⟩
    · obtain ⟨l', hl', k, rfl, hpre⟩ := ih hx
      refine ⟨l', List.mem_cons_of_mem _ hl', (g l i).length + k, by rw [Nat.add_assoc], ?_⟩
      rwa [← Nat.add_assoc, List.drop_length_add_append]

end Laid

namespace Plan

/-- The plan of a search for `root`, where the patterns of `keyed` are keyed around it. -/
def amid (ps : PatternSet s) (keyed : List PatternId) (root : PatternId) : Plan :=
  .mk root (fill ps keyed .root root 0)

/-- An attempt may come to the scope `i`. -/
inductive Open (plan : Plan) : Nat → Prop where
  | start : Open plan 0
  | disjunct {i j slot : Nat} {m : PatternId} (h : Open plan i)
      (hj : (plan.scope i).disjunct? m slot = some j) : Open plan j

/-- The scope `i` of the plan and those below it are entered by `link`, which leads to `seed`, where
the patterns of `keyed` are keyed around it. -/
structure Entered (ps : PatternSet s) (plan : Plan) (i : Nat) (keyed : List PatternId)
    (link : LinkId) (seed : PatternId) : Prop where
  isPrefix : fill ps keyed link seed i <+: plan.scopes.drop i
  isOpen : plan.Open i
  outside : ∀ p slot, link = .child p slot → p ∈ keyed

/-- What the scope `i` of a plan keys and where it leads: it is entered by `link` and keys the
patterns of `new` besides those of `keyed`. -/
structure Scoped (ps : PatternSet s) (plan : Plan) (i : Nat) (keyed : List PatternId)
    (link : LinkId) (seed : PatternId) (new : List PatternId) : Prop where
  isOpen : plan.Open i
  outside : ∀ p slot, link = .child p slot → p ∈ keyed
  keyed_eq : (plan.scope i).keyed = keyed ++ new
  nodup : new.Nodup
  fresh : ∀ p ∈ new, p ∉ keyed
  le_seed : ∀ p ∈ new, p ≤ seed
  keyers : List.Forall₂ (Considered ps new link seed) (plan.scope i).keyers new
  closed : ∀ {l q}, Considered ps new link seed l q → q ∈ (plan.scope i).keyed
  of_disjunct : ∀ {p slot j}, (plan.scope i).disjunct? p slot = some j →
    p ∈ new ∧ ps.isDisjunction p = true ∧
      ∃ q, ps.Leads p slot q ∧ plan.Entered ps j (plan.scope i).keyed (.child p slot) q
  disjunct : ∀ {p slot q}, p ∈ new → ps.isDisjunction p = true → ps.Leads p slot q →
    ∃ j, (plan.scope i).disjunct? p slot = some j ∧
      plan.Entered ps j (plan.scope i).keyed (.child p slot) q
  nested : ∀ {p slot q}, p ∈ new → ps.Guards p slot q →
    (plan.scope i).nested? p slot = some (amid ps (plan.scope i).keyed q)
  of_nested : ∀ {p slot inner}, (plan.scope i).nested? p slot = some inner →
    ∃ q, p ∈ new ∧ ps.Guards p slot q ∧ inner = amid ps (plan.scope i).keyed q

variable {ps : PatternSet s} {plan : Plan} {i : Nat} {keyed new : List PatternId} {link : LinkId}
  {seed : PatternId}

theorem entered_amid (ps : PatternSet s) (keyed : List PatternId) (root : PatternId) :
    (amid ps keyed root).Entered ps 0 keyed .root root where
  isPrefix := List.prefix_rfl
  isOpen := .start
  outside p slot h := by cases h

/-- The scope that is entered comes first, with what its election has found, and those of its
disjuncts are laid out after it. -/
theorem exists_laid (ps : PatternSet s) (keyed : List PatternId) (link : LinkId) (seed : PatternId)
    (i : Nat) {e : Election seed} (he : Election.run ps keyed link seed = e) :
    ∃ disjuncts below, fill ps keyed link seed i = .mk e.keyers e.keyed disjuncts
        (e.abnormal.map fun l => ((l.pattern, l.slot), amid ps e.keyed l.target.val)) :: below ∧
      Laid (fun l => fill ps e.keyed (.child l.pattern l.slot) l.target.val) (i + 1) e.deferred
        disjuncts below := by
  subst he
  obtain ⟨disjuncts, below, heq, hlaid⟩ := laid_foldl (fun l =>
    fill ps (Election.run ps keyed link seed).keyed (.child l.pattern l.slot) l.target.val) i
    (Election.run ps keyed link seed).deferred [] []
  refine ⟨disjuncts, below, ?_, hlaid⟩
  rw [fill]
  dsimp only
  rw [heq]
  rfl

theorem scope_eq_of_isPrefix {scope : Scope} {below : List Scope}
    (h : scope :: below <+: plan.scopes.drop i) : plan.scope i = scope := by
  obtain ⟨rest, hrest⟩ := h
  rw [Plan.scope, ← List.head?_drop, ← hrest]
  rfl

theorem Entered.lt_length (h : plan.Entered ps i keyed link seed) : i < plan.scopes.length := by
  obtain ⟨disjuncts, below, hfill, -⟩ := exists_laid ps keyed link seed i rfl
  have hle := h.isPrefix.length_le
  rw [hfill, List.length_cons, List.length_drop] at hle
  omega

theorem Entered.scoped (h : plan.Entered ps i keyed link seed) :
    ∃ new, plan.Scoped ps i keyed link seed new := by
  obtain ⟨new, c⟩ := Election.census_run ps keyed link seed
  have hpre := h.isPrefix
  generalize he : Election.run ps keyed link seed = e at c
  obtain ⟨disjuncts, below, hfill, hlaid⟩ := exists_laid ps keyed link seed i he
  rw [hfill] at hpre
  have hscope := scope_eq_of_isPrefix hpre
  -- The index noted for a disjunct is the place where its own scopes begin, so it is entered in
  -- turn.
  have hof {p slot j} (hj : (plan.scope i).disjunct? p slot = some j) :
      p ∈ new ∧ ps.isDisjunction p = true ∧
        ∃ q, ps.Leads p slot q ∧ plan.Entered ps j e.keyed (.child p slot) q := by
    have hopen := Open.disjunct h.isOpen hj
    rw [hscope] at hj
    obtain ⟨o, ho, k, heq, hfill⟩ := hlaid.of_mem (mem_of_lookup hj)
    cases heq
    obtain ⟨hp, hd, hlead⟩ := c.of_deferred o ho
    refine ⟨hp, hd, o.target.val, hlead, ?_, hopen, ?_⟩
    · have hdrop := List.IsPrefix.drop hpre (1 + k)
      rw [List.drop_drop, ← Nat.add_assoc, Nat.add_comm 1 k, List.drop_succ_cons] at hdrop
      exact hfill.trans hdrop
    · intro p' slot' heq
      cases heq
      rw [c.keyed_eq]
      exact List.mem_append_right _ hp
  have hofNested {p slot inner} (hn : (plan.scope i).nested? p slot = some inner) :
      ∃ q, p ∈ new ∧ ps.Guards p slot q ∧ inner = amid ps e.keyed q := by
    rw [hscope] at hn
    obtain ⟨o, ho, heq⟩ := List.mem_map.mp (mem_of_lookup hn)
    simp only [Prod.mk.injEq] at heq
    obtain ⟨⟨rfl, rfl⟩, rfl⟩ := heq
    exact ⟨o.target.val, (c.of_abnormal o ho).1, (c.of_abnormal o ho).2, rfl⟩
  refine ⟨new, ?_⟩
  constructor
  case isOpen => exact h.isOpen
  case outside => exact h.outside
  case nodup => exact c.nodup
  case fresh => exact c.fresh
  case le_seed => exact c.le_seed
  case keyed_eq =>
    rw [hscope]
    exact c.keyed_eq
  case keyers =>
    rw [hscope]
    exact c.keyers
  case closed =>
    intro l q hl
    rw [hscope]
    exact (c.followed l q hl).resolve_right (by simp)
  case of_disjunct =>
    rw [hscope] at hof ⊢
    exact hof
  case disjunct =>
    intro p slot q hp hd hlead
    obtain ⟨o, ho, rfl, rfl, rfl⟩ := c.deferred p hp hd slot q hlead
    obtain ⟨j, hj⟩ := hlaid.exists_mem ho
    obtain ⟨j', hj'⟩ := exists_lookup_of_mem hj
    have hj' : (plan.scope i).disjunct? o.pattern o.slot = some j' := by rwa [hscope]
    obtain ⟨-, -, q, hq, hentered⟩ := hof hj'
    rw [hlead.unique hq]
    refine ⟨j', hj', ?_⟩
    rwa [hscope]
  case nested =>
    intro p slot q hp hguard
    obtain ⟨o, ho, rfl, rfl, rfl⟩ := c.abnormal p hp slot q hguard
    have hmem : ((o.pattern, o.slot), amid ps e.keyed o.target.val) ∈ (plan.scope i).nested := by
      rw [hscope]
      exact List.mem_map.mpr ⟨o, ho, rfl⟩
    obtain ⟨inner, hinner⟩ := exists_lookup_of_mem hmem
    obtain ⟨q, -, hguard', rfl⟩ := hofNested hinner
    rw [hguard.unique hguard']
    rwa [hscope] at hinner ⊢
  case of_nested =>
    rw [hscope] at hofNested ⊢
    exact hofNested

/-! ## Keyers of one scope -/

namespace Scoped

variable {l l' : LinkId} {p q q' : PatternId} {slot : Nat}

theorem considered_unique (sc : plan.Scoped ps i keyed link seed new)
    (h : Considered ps new link seed l q) (h' : Considered ps new link seed l q') : q = q' := by
  -- The link that enters the scope leaves a pattern around it, so it is none of those inside.
  cases h with
  | seed =>
    cases h' with
    | seed => rfl
    | child hp => exact (sc.fresh _ hp (sc.outside _ _ rfl)).elim
  | child hp _ hl =>
    cases h' with
    | seed => exact (sc.fresh _ hp (sc.outside _ _ rfl)).elim
    | child _ _ hl' => exact hl.unique hl'

theorem exists_getElem?_of_isKeyer (sc : plan.Scoped ps i keyed link seed new)
    (h : Considered ps new link seed l q) (hk : (plan.scope i).isKeyer l = true) :
    ∃ k : Nat, (plan.scope i).keyers[k]? = some l ∧ new[k]? = some q := by
  have hmem : l ∈ (plan.scope i).keyers := by simpa [Scope.isKeyer] using hk
  obtain ⟨k, hkey⟩ := List.mem_iff_getElem?.mp hmem
  obtain ⟨hlt, hget⟩ := List.getElem?_eq_some_iff.mp hkey
  obtain ⟨hlen, hrel⟩ := List.forall₂_iff_get.mp sc.keyers
  have hnew := hrel k hlt (hlen ▸ hlt)
  rw [List.get_eq_getElem, hget] at hnew
  refine ⟨k, hkey, ?_⟩
  rw [sc.considered_unique h hnew]
  simp

/-- What a keyer leads to is keyed in its scope and not around it. -/
theorem mem_of_isKeyer (sc : plan.Scoped ps i keyed link seed new)
    (h : Considered ps new link seed l q) (hk : (plan.scope i).isKeyer l = true) : q ∈ new := by
  obtain ⟨k, -, hnew⟩ := sc.exists_getElem?_of_isKeyer h hk
  exact List.mem_of_getElem? hnew

/-- A pattern has one keyer. -/
theorem keyer_unique (sc : plan.Scoped ps i keyed link seed new)
    (h : Considered ps new link seed l q) (hk : (plan.scope i).isKeyer l = true)
    (h' : Considered ps new link seed l' q) (hk' : (plan.scope i).isKeyer l' = true) : l = l' := by
  obtain ⟨k, hkey, hnew⟩ := sc.exists_getElem?_of_isKeyer h hk
  obtain ⟨k', hkey', hnew'⟩ := sc.exists_getElem?_of_isKeyer h' hk'
  have hlt := (List.getElem?_eq_some_iff.mp hnew).1
  obtain rfl := (List.getElem?_inj hlt sc.nodup).mp (hnew.trans hnew'.symm)
  exact Option.some.inj (hkey.symm.trans hkey')

theorem exists_keyer (sc : plan.Scoped ps i keyed link seed new) (h : q ∈ new) :
    ∃ l, (plan.scope i).isKeyer l = true ∧ Considered ps new link seed l q := by
  obtain ⟨k, hk, rfl⟩ := List.mem_iff_getElem.mp h
  obtain ⟨hlen, hrel⟩ := List.forall₂_iff_get.mp sc.keyers
  refine ⟨_, ?_, hrel k (hlen ▸ hk) hk⟩
  simp [Scope.isKeyer]

/-- Where a normal or multiplicity link is followed from a pattern keyed in scope `i`: a disjunction
leads into the scope of the disjunct and any other pattern stays. -/
theorem disjunct?_eq_none (sc : plan.Scoped ps i keyed link seed new)
    (hd : ps.isDisjunction p = false) : (plan.scope i).disjunct? p slot = none := by
  cases hj : (plan.scope i).disjunct? p slot with
  | none => rfl
  | some j =>
    rw [(sc.of_disjunct hj).2.1] at hd
    cases hd

end Scoped

end Plan

/-- Keyers of one scope lead from `link`, which leads to `p`, down to `l`, which leads to `q`. -/
inductive Within (ps : PatternSet s) (scope : Scope) (link : LinkId) (p : PatternId) :
    LinkId → PatternId → Prop where
  | self (hk : scope.isKeyer link = true) : Within ps scope link p link p
  | step {l : LinkId} {r q : PatternId} {slot : Nat} (h : Within ps scope link p l r)
      (hd : ps.isDisjunction r = false) (hl : ps.Leads r slot q)
      (hk : scope.isKeyer (.child r slot) = true) : Within ps scope link p (.child r slot) q

namespace Within

variable {ps : PatternSet s} {scope : Scope} {link l : LinkId} {p q : PatternId}

theorem isKeyer (h : Within ps scope link p l q) : scope.isKeyer l = true := by
  cases h <;> assumption

theorem isKeyer_first (h : Within ps scope link p l q) : scope.isKeyer link = true := by
  induction h with
  | self hk => exact hk
  | step _ _ _ _ ih => exact ih

theorem le (h : Within ps scope link p l q) : q ≤ p := by
  induction h with
  | self => exact Nat.le_refl p
  | step _ _ hl _ ih => exact Nat.le_of_lt (Nat.lt_of_lt_of_le hl.lt ih)

theorem cons {slot : Nat} {t : PatternId} (h : Within ps scope (.child p slot) t l q)
    (hk : scope.isKeyer link = true) (hd : ps.isDisjunction p = false) (hl : ps.Leads p slot t) :
    Within ps scope link p l q := by
  induction h with
  | self hk' => exact .step (.self hk) hd hl hk'
  | step _ hd' hl' hk' ih => exact ih.step hd' hl' hk'

/-- The first step of the way. -/
theorem eq_or_step (h : Within ps scope link p l q) : l = link ∧ q = p ∨
    ∃ slot t, ps.isDisjunction p = false ∧ ps.Leads p slot t ∧
    Within ps scope (.child p slot) t l q := by
  induction h with
  | self => exact .inl ⟨rfl, rfl⟩
  | step h hd hl hk ih =>
    rcases ih with ⟨rfl, rfl⟩ | ⟨slot, t, hd', hl', h'⟩
    · exact .inr ⟨_, _, hd, hl, .self hk⟩
    · exact .inr ⟨slot, t, hd', hl', h'.step hd hl hk⟩

end Within

namespace Plan.Scoped

variable {ps : PatternSet s} {plan : Plan} {i : Nat} {keyed new : List PatternId}
  {link l l' : LinkId} {seed p q t t' : PatternId} {slot slot' : Nat}

theorem considered_of_within (sc : plan.Scoped ps i keyed link seed new)
    (h : Considered ps new link seed l p) (hw : Within ps (plan.scope i) l p l' q) :
    Considered ps new link seed l' q := by
  induction hw with
  | self => exact h
  | step hw hd hl _ ih => exact .child (sc.mem_of_isKeyer ih hw.isKeyer) hd hl

/-- Keyers lead from the entry of a scope to everything that is keyed there. -/
theorem exists_within (sc : plan.Scoped ps i keyed link seed new) (h : q ∈ new) :
    ∃ l, Within ps (plan.scope i) link seed l q := by
  -- A keyer leaves a later pattern than the one it leads to, and none is later than the seed.
  induction hn : seed - q using Nat.strongRecOn generalizing q with
  | ind n ih =>
    obtain ⟨l, hk, hl⟩ := sc.exists_keyer h
    cases hl with
    | seed => exact ⟨_, .self hk⟩
    | child hr hd hlead =>
      have hlt := Nat.sub_lt_sub_left (Nat.lt_of_lt_of_le hlead.lt (sc.le_seed _ hr)) hlead.lt
      obtain ⟨l, hw⟩ := ih _ (hn ▸ hlt) hr rfl
      exact ⟨_, hw.step hd hlead hk⟩

/-- Keyers lead to a pattern along one branch only. -/
theorem slot_eq_of_within (sc : plan.Scoped ps i keyed link seed new) (hp : p ∈ new)
    (hd : ps.isDisjunction p = false) (ht : ps.Leads p slot t) (ht' : ps.Leads p slot' t')
    (hw : Within ps (plan.scope i) (.child p slot) t l q)
    (hw' : Within ps (plan.scope i) (.child p slot') t' l' q) : slot = slot' := by
  have hc := sc.considered_of_within (.child hp hd ht) hw
  have hc' := sc.considered_of_within (.child hp hd ht') hw'
  have heq := sc.keyer_unique hc hw.isKeyer hc' hw'.isKeyer
  -- Both ways end with the keyer of `q`; go up from there until one of them begins.
  induction hw generalizing l' with
  | self =>
    cases hw' with
    | self => exact (LinkId.child.inj heq).2
    | step hw' =>
      have hle := hw'.le
      rw [← (LinkId.child.inj heq).1] at hle
      exact absurd ht'.lt (Nat.not_lt.mpr hle)
  | step hw _ _ _ ih =>
    cases hw' with
    | self =>
      have hle := hw.le
      rw [(LinkId.child.inj heq).1] at hle
      exact absurd ht.lt (Nat.not_lt.mpr hle)
    | step hw' =>
      obtain ⟨rfl, -⟩ := LinkId.child.inj heq
      have hc := sc.considered_of_within (.child hp hd ht) hw
      have hc' := sc.considered_of_within (.child hp hd ht') hw'
      exact ih hw' hc hc' (sc.keyer_unique hc hw.isKeyer hc' hw'.isKeyer)

end Plan.Scoped

end Espalier
