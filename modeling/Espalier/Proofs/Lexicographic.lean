import Espalier.Proofs.Backtracking
import Mathlib.Data.List.Lex
import Mathlib.Order.Lattice

/-!
# Backtracking in lexicographic order

A walk is a deterministic computation with a finite tree of choices: given the choices so far it
asks for another one or has come to an end.  `Walk.EndsAt` says where its ends are, without a word
about conjectures.  The loop of a search knows of the tree only the decisions that it has on record,
and still it goes through the ends in lexicographic order of the choices, each of them once, up to
the first one that succeeds.
-/

namespace Espalier

namespace Walk

variable {α : Type}

/-- The walk ends with `a` once the choices of `path` are taken, each of them on offer. -/
inductive EndsAt : Walk α → (path : List Nat) → α → Prop where
  | done (a : α) : EndsAt (.done a) [] a
  | ask {offer : Offer} {next : Nat → Walk α} {i : Nat} {path : List Nat} {a : α}
      (hstart : offer.start ≤ i) (hstop : i < offer.stop) (h : EndsAt (next i) path a) :
      EndsAt (.ask offer next) (i :: path) a

/-- Wherever the walk asks for a choice there is one. -/
def HasChoices : Walk α → Prop
  | .done _ => True
  | .ask offer next => offer.start < offer.stop ∧
      ∀ i, offer.start ≤ i → i < offer.stop → (next i).HasChoices

/-- The ends of a walk with the choices that lead to them, in the order in which a search comes to
them. -/
def ends (w : Walk α) : List (List Nat × α) := w.endsFrom []

theorem ends_ask (offer : Offer) (next : Nat → Walk α) : (ask offer next).ends =
    (offer.start :: List.range' (offer.start + 1) (offer.stop - (offer.start + 1))).flatMap fun i =>
      (next i).ends.map (Prod.map (i :: ·) id) := rfl

theorem mem_choices {offer : Offer} (h : offer.start < offer.stop) {i : Nat} :
    i ∈ offer.start :: List.range' (offer.start + 1) (offer.stop - (offer.start + 1)) ↔
      offer.start ≤ i ∧ i < offer.stop := by
  rw [List.mem_cons, List.mem_range'_1]
  omega

/-- A search has all ends of the walk before it, and no others. -/
theorem mem_ends_iff {w : Walk α} (hw : w.HasChoices) {path : List Nat} {a : α} :
    (path, a) ∈ w.ends ↔ w.EndsAt path a := by
  induction w generalizing path with
  | done b =>
    constructor
    · intro h
      obtain ⟨rfl, rfl⟩ := Prod.mk.inj (List.mem_singleton.mp h)
      exact .done _
    · rintro ⟨⟩
      exact List.mem_singleton.mpr rfl
  | ask offer next ih =>
    obtain ⟨hoffer, hnext⟩ := hw
    rw [ends_ask, List.mem_flatMap]
    constructor
    · rintro ⟨i, hi, h⟩
      obtain ⟨hstart, hstop⟩ := (mem_choices hoffer).mp hi
      obtain ⟨⟨path', a'⟩, hmem, heq⟩ := List.mem_map.mp h
      obtain ⟨rfl, rfl⟩ := Prod.mk.inj heq
      exact .ask hstart hstop ((ih i (hnext i hstart hstop)).mp hmem)
    · intro h
      cases h with
      | ask hstart hstop h =>
        have hmem := (ih _ (hnext _ hstart hstop)).mpr h
        exact ⟨_, (mem_choices hoffer).mpr ⟨hstart, hstop⟩, List.mem_map.mpr ⟨_, hmem, rfl⟩⟩

/-- The ends of a walk are its leaves. -/
theorem mem_leaves_iff {w : Walk α} (hw : w.HasChoices) {a : α} :
    a ∈ w.leaves ↔ ∃ path, w.EndsAt path a := by
  have hleaves : w.leaves = w.ends.map Prod.snd := (w.map_snd_endsFrom []).symm
  rw [hleaves, List.mem_map]
  constructor
  · rintro ⟨⟨path, _⟩, hmem, rfl⟩
    exact ⟨path, (mem_ends_iff hw).mp hmem⟩
  · rintro ⟨path, h⟩
    exact ⟨(path, a), (mem_ends_iff hw).mpr h, rfl⟩

/-- A walk that always has a choice comes to an end. -/
theorem HasChoices.exists_endsAt {w : Walk α} (hw : w.HasChoices) : ∃ path a, w.EndsAt path a := by
  induction w with
  | done a => exact ⟨[], a, .done a⟩
  | ask offer next ih =>
    obtain ⟨path, a, h⟩ := ih offer.start (hw.2 _ (Nat.le_refl _) hw.1)
    exact ⟨offer.start :: path, a, .ask (Nat.le_refl _) hw.1 h⟩

/-- The choices of a walk that is continued by another one are those of the first and then those of
the second. -/
theorem endsAt_bind {β : Type} {w : Walk α} {k : α → Walk β} {path : List Nat} {b : β} :
    (w.bind k).EndsAt path b ↔
      ∃ before a after, path = before ++ after ∧ w.EndsAt before a ∧ (k a).EndsAt after b := by
  induction w generalizing path with
  | done a =>
    constructor
    · intro h
      exact ⟨[], a, path, rfl, .done a, h⟩
    · rintro ⟨_, _, after, rfl, ⟨⟩, h⟩
      exact h
  | ask offer next ih =>
    constructor
    · intro h
      cases h with
      | @ask _ _ i path _ hstart hstop h =>
        obtain ⟨before, a, after, rfl, hbefore, hafter⟩ := (ih i).mp h
        exact ⟨i :: before, a, after, rfl, .ask hstart hstop hbefore, hafter⟩
    · rintro ⟨_, a, after, rfl, hbefore, hafter⟩
      cases hbefore with
      | ask hstart hstop hbefore =>
        exact .ask hstart hstop ((ih _).mpr ⟨_, a, after, rfl, hbefore, hafter⟩)

theorem HasChoices.bind {β : Type} {w : Walk α} {k : α → Walk β} (hw : w.HasChoices)
    (hk : ∀ path a, w.EndsAt path a → (k a).HasChoices) : (w.bind k).HasChoices := by
  induction w with
  | done a => exact hk [] a (.done a)
  | ask offer next ih =>
    refine ⟨hw.1, fun i hstart hstop => ih i (hw.2 i hstart hstop) fun path a h => ?_⟩
    exact hk (i :: path) a (.ask hstart hstop h)

/-- The ends come in lexicographic order of the choices, none of them twice. -/
theorem pairwise_ends (w : Walk α) : w.ends.Pairwise fun x y => x.1 < y.1 := by
  induction w with
  | done a => exact List.pairwise_singleton _ _
  | ask offer next ih =>
    rw [ends_ask, List.pairwise_flatMap]
    constructor
    · intro i _
      rw [List.pairwise_map]
      refine (ih i).imp fun h => ?_
      exact List.cons_lt_cons_iff.mpr (.inr ⟨rfl, h⟩)
    · -- Ends below different choices are told apart by these.
      have hchoices : (offer.start :: List.range' (offer.start + 1)
          (offer.stop - (offer.start + 1))).Pairwise (· < ·) :=
        List.pairwise_cons.mpr ⟨fun i hi => (List.mem_range'_1.mp hi).1, List.pairwise_lt_range'⟩
      refine hchoices.imp fun hij => ?_
      intro x hx y hy
      obtain ⟨x, -, rfl⟩ := List.mem_map.mp hx
      obtain ⟨y, -, rfl⟩ := List.mem_map.mp hy
      exact List.cons_lt_cons_iff.mpr (.inl hij)

section Settled

variable {xs : List (List Nat × Except Halt α)}

/-- Where no end is a fault, the ends before the first success are those below all successes. -/
theorem mem_beforeSettled_iff (hsorted : xs.Pairwise fun x y => x.1 < y.1)
    (hxs : ∀ path e, (path, .error (.fault e)) ∉ xs) {path : List Nat} :
    path ∈ beforeSettled xs ↔
      (∃ r, (path, r) ∈ xs) ∧ ∀ path' a, (path', .ok a) ∈ xs → path < path' := by
  induction xs with
  | nil => simp [beforeSettled]
  | cons x xs ih =>
    obtain ⟨first, r⟩ := x
    obtain ⟨hfirst, hrest⟩ := List.pairwise_cons.mp hsorted
    match r with
    | .ok a =>
      -- The first end succeeds, so no end is below all successes.
      refine iff_of_false (by simp [beforeSettled]) ?_
      rintro ⟨⟨r, hr⟩, hbelow⟩
      have hlt : path < first := hbelow first a (by simp)
      rcases List.mem_cons.mp hr with heq | hr
      · rw [(Prod.mk.inj heq).1] at hlt
        exact lt_irrefl _ hlt
      · exact lt_asymm hlt (hfirst _ hr)
    | .error (.fault e) => exact (hxs first e (by simp)).elim
    | .error (.mismatch m) =>
      rw [beforeSettled, List.mem_cons, ih hrest fun path e h => hxs path e (by simp [h])]
      constructor
      · rintro (rfl | ⟨⟨r, hr⟩, hbelow⟩)
        · exact ⟨⟨_, List.mem_cons_self⟩, fun path' a h => hfirst (path', .ok a) (by simpa using h)⟩
        · exact ⟨⟨r, by simp [hr]⟩, fun path' a h => hbelow path' a (by simpa using h)⟩
      · rintro ⟨⟨r, hr⟩, hbelow⟩
        rcases List.mem_cons.mp hr with heq | hr
        · exact .inl (Prod.mk.inj heq).1
        · exact .inr ⟨⟨r, hr⟩, fun path' a h => hbelow path' a (by simp [h])⟩

theorem pairwise_beforeSettled (hsorted : xs.Pairwise fun x y => x.1 < y.1) :
    (beforeSettled xs).Pairwise (· < ·) := by
  have hsub : List.Sublist (beforeSettled xs) (xs.map Prod.fst) := by
    induction xs with
    | nil => exact .slnil
    | cons x xs ih =>
      obtain ⟨first, r⟩ := x
      match r with
      | .ok a | .error (.fault e) => exact List.nil_sublist _
      | .error (.mismatch m) => exact (ih (List.pairwise_cons.mp hsorted).2).cons_cons first
  exact (List.pairwise_map.mpr hsorted).sublist hsub

/-- Where no end is a fault, a search finds the first success or there is none. -/
theorem firstSettled_of_no_fault (hxs : ∀ path e, (path, .error (.fault e)) ∉ xs) :
    (∃ a, firstSettled (xs.map Prod.snd) = .ok (some a)) ∨
      firstSettled (xs.map Prod.snd) = .ok none ∧ ∀ path a, (path, .ok a) ∉ xs := by
  rcases firstSettled_cases (xs.map Prod.snd) with ⟨e, -, hmem⟩ | ⟨a, h, -⟩ | ⟨h, hmem⟩
  · obtain ⟨⟨path, r⟩, hx, rfl⟩ := List.mem_map.mp hmem
    exact (hxs path e hx).elim
  · exact .inl ⟨a, h⟩
  · exact .inr ⟨h, fun path a hx => hmem a (List.mem_map.mpr ⟨_, hx, rfl⟩)⟩

/-- The first success in a row of ends is the least of them. -/
theorem firstSettled_eq_some_iff (hsorted : xs.Pairwise fun x y => x.1 < y.1)
    (hxs : ∀ path e, (path, .error (.fault e)) ∉ xs) {a : α} :
    firstSettled (xs.map Prod.snd) = .ok (some a) ↔
      ∃ path, (path, .ok a) ∈ xs ∧ ∀ path' a', (path', .ok a') ∈ xs → path ≤ path' := by
  induction xs with
  | nil => simp [firstSettled]
  | cons x xs ih =>
    obtain ⟨first, r⟩ := x
    obtain ⟨hfirst, hrest⟩ := List.pairwise_cons.mp hsorted
    match r with
    | .ok b =>
      have hleast {path' a'} (h : (path', .ok a') ∈ (first, .ok b) :: xs) : first ≤ path' := by
        rcases List.mem_cons.mp h with heq | h
        · exact (Prod.mk.inj heq).1.ge
        · exact (hfirst _ h).le
      constructor
      · intro h
        obtain rfl : b = a := by simpa [firstSettled] using h
        exact ⟨first, by simp, fun path' a' h => hleast h⟩
      · rintro ⟨path, hpath, hbelow⟩
        rcases List.mem_cons.mp hpath with heq | hpath
        · obtain rfl : a = b := by simpa using (Prod.mk.inj heq).2
          rfl
        · exact absurd (hbelow first b (by simp)) (not_le_of_gt (hfirst _ hpath))
    | .error (.fault e) => exact (hxs first e (by simp)).elim
    | .error (.mismatch m) =>
      rw [List.map_cons, firstSettled, ih hrest fun path e h => hxs path e (by simp [h])]
      simp

end Settled

/-- A search goes the same way whenever it starts from the same conjecture. -/
theorem Searches.unique {w : Walk (Except Halt α)} {c : Conjecture} {tried tried' : List (List Nat)}
    {r r' : Except Fault (Option α)} (h : w.Searches c tried r) (h' : w.Searches c tried' r') :
    tried = tried' := by
  induction h generalizing tried' with
  | found hrun | fault hrun | reshaped hrun => cases h' <;> simp_all
  | exhausted hrun hi => cases h' <;> simp_all
  | retry hrun hi _ ih =>
    cases h' with
    | retry hrun' hi' h' =>
      obtain ⟨-, rfl⟩ := EStateM.Result.ok.inj (hrun.symm.trans hrun')
      obtain ⟨-, rfl⟩ := Prod.mk.inj (hi.symm.trans hi')
      rw [ih h']
    | _ => simp_all

/-- Backtracking is exhaustive and goes in lexicographic order.  The loop comes to an end without a
fault, so that no decision is ever offered other choices than those on record; its failed attempts
are the ends before the first success, in order and each of them once; and it runs out of
combinations where there is no success. -/
theorem searches_lexicographic {w : Walk (Except Halt α)} (hw : w.HasChoices)
    (hends : ∀ path e, ¬ w.EndsAt path (.error (.fault e))) :
    (∃ tried r, w.Searches .empty tried r) ∧
    ∀ tried r, w.Searches .empty tried r →
      w.solve = r ∧ (∀ e, r ≠ .error e) ∧ tried.Pairwise (· < ·) ∧
      (∀ path, path ∈ tried ↔
        (∃ r', w.EndsAt path r') ∧ ∀ path' a, w.EndsAt path' (.ok a) → path < path') ∧
      (∀ a, r = .ok (some a) ↔
        ∃ path, w.EndsAt path (.ok a) ∧ ∀ path' a', w.EndsAt path' (.ok a') → path ≤ path') ∧
      (r = .ok none ↔ ∀ path a, ¬ w.EndsAt path (.ok a)) := by
  have hsearches := w.searches_of_replays .empty (by simp [Conjecture.empty])
  change w.Searches .empty (beforeSettled w.ends) (firstSettled (w.ends.map Prod.snd)) at hsearches
  have hfaults (path e) : (path, .error (.fault e)) ∉ w.ends := by
    rw [mem_ends_iff hw]
    exact hends path e
  have hsorted := w.pairwise_ends
  refine ⟨⟨_, _, hsearches⟩, fun tried r h => ?_⟩
  have hsolve : w.solve = r := solveFrom_eq_of_searches h
  obtain rfl : r = firstSettled (w.ends.map Prod.snd) :=
    hsolve.symm.trans (solveFrom_eq_of_searches hsearches)
  obtain rfl := h.unique hsearches
  have hsome (a : α) := firstSettled_eq_some_iff hsorted hfaults (a := a)
  have hmem (path : List Nat) : path ∈ beforeSettled w.ends ↔ _ :=
    mem_beforeSettled_iff hsorted hfaults
  have hfound := firstSettled_of_no_fault hfaults
  simp only [mem_ends_iff hw] at hsome hmem hfound
  refine ⟨hsolve, ?_, pairwise_beforeSettled hsorted, hmem, hsome, ?_⟩
  · rintro e he
    rcases hfound with ⟨a, ha⟩ | ⟨hnone, -⟩
    · cases ha.symm.trans he
    · cases hnone.symm.trans he
  · rcases hfound with ⟨a, ha⟩ | ⟨hnone, hno⟩
    · obtain ⟨path, hpath, -⟩ := (hsome a).mp ha
      refine iff_of_false (fun hnone => ?_) fun hno => hno path a hpath
      cases ha.symm.trans hnone
    · exact iff_of_true hnone hno

/-- A walk whose further choices depend on the first one: there are two of them, none, or one. -/
def uneven : Walk (Except Halt Nat) :=
  .ask ⟨0, 4⟩ fun i =>
    if i = 0 then .ask ⟨2, 4⟩ fun _ => .ask ⟨0, 1⟩ fun _ => .done (.error (.mismatch .size))
    else if i = 1 then .done (.error (.mismatch .local))
    else .ask ⟨1, 3⟩ fun j => .done (if i = 2 ∧ j = 2 then .ok 7 else .error (.mismatch .coupling))

theorem hasChoices_uneven : uneven.HasChoices := by
  refine ⟨by decide, fun i _ _ => ?_⟩
  by_cases h : i = 0
  · simp [h, HasChoices]
  · by_cases h' : i = 1 <;> simp [h, h', HasChoices]

theorem endsAt_uneven {path : List Nat} {r : Except Halt Nat} : uneven.EndsAt path r ↔
    (path, r) ∈ [([0, 2, 0], .error (.mismatch .size)), ([0, 3, 0], .error (.mismatch .size)),
      ([1], .error (.mismatch .local)), ([2, 1], .error (.mismatch .coupling)), ([2, 2], .ok 7),
      ([3, 1], .error (.mismatch .coupling)), ([3, 2], .error (.mismatch .coupling))] :=
  (mem_ends_iff hasChoices_uneven).symm

theorem searches_lexicographic_uneven :
    uneven.HasChoices ∧ (∀ path e, ¬ uneven.EndsAt path (.error (.fault e))) ∧
      ∃ tried, uneven.Searches .empty tried (.ok (some 7)) ∧ tried.Pairwise (· < ·) ∧
        [0, 3, 0] ∈ tried ∧ [1] ∈ tried ∧ [2, 1] ∈ tried ∧ [3, 1] ∉ tried := by
  have hends (path e) : ¬ uneven.EndsAt path (.error (.fault e)) := by simp [endsAt_uneven]
  obtain ⟨⟨tried, r, h⟩, hall⟩ := searches_lexicographic hasChoices_uneven hends
  obtain ⟨-, -, hsorted, hmem, hsome, -⟩ := hall tried r h
  have hleast : ∀ path' a', uneven.EndsAt path' (.ok a') → path' = [2, 2] := by simp [endsAt_uneven]
  obtain rfl : r = .ok (some 7) :=
    (hsome 7).mpr ⟨[2, 2], by simp [endsAt_uneven], fun path' a' h => (hleast path' a' h).ge⟩
  have hlt : [0, 3, 0] < [2, 2] ∧ [1] < [2, 2] ∧ [1] < [2] ∧ [2, 2] ≤ [3, 1] := by decide
  exact ⟨hasChoices_uneven, hends, tried, h, hsorted, by simpa [hmem, endsAt_uneven] using hlt⟩

end Walk

/-! ## The ends of an attempt -/

namespace Attempt

variable {α β : Type} {path : List Nat}

@[simp] theorem endsAt_pure {a : α} {r : Except Halt α} :
    Walk.EndsAt (pure a : Attempt α) path r ↔ path = [] ∧ r = .ok a := by
  constructor
  · rintro ⟨⟩
    exact ⟨rfl, rfl⟩
  · rintro ⟨rfl, rfl⟩
    exact .done _

@[simp] theorem endsAt_mismatch {m : Mismatch} {r : Except Halt α} :
    Walk.EndsAt (mismatch m : Attempt α) path r ↔ path = [] ∧ r = .error (.mismatch m) := by
  constructor
  · rintro ⟨⟩
    exact ⟨rfl, rfl⟩
  · rintro ⟨rfl, rfl⟩
    exact .done _

theorem endsAt_choose_bind {start stop : Nat} {k : Nat → Attempt β} {r : Except Halt β} :
    Walk.EndsAt (choose start stop >>= k : Attempt β) path r ↔
      ∃ i rest, path = i :: rest ∧ start ≤ i ∧ i < stop ∧ Walk.EndsAt (k i) rest r := by
  constructor
  · intro h
    cases h with
    | ask hstart hstop h => exact ⟨_, _, rfl, hstart, hstop, h⟩
  · rintro ⟨i, rest, rfl, hstart, hstop, h⟩
    exact .ask hstart hstop h

/-- What is done with the result of an attempt changes none of its choices. -/
theorem endsAt_map {x : Attempt α} {g : α → β} {r : Except Halt β} :
    Walk.EndsAt (do return g (← x) : Attempt β) path r ↔ ∃ r',
      Walk.EndsAt x path r' ∧ r = r'.map g := by
  refine Walk.endsAt_bind.trans ⟨?_, ?_⟩
  · rintro ⟨before, e | a, after, rfl, hbefore, hafter⟩
    · cases hafter
      exact ⟨_, by simpa using hbefore, rfl⟩
    · cases hafter
      exact ⟨_, by simpa using hbefore, rfl⟩
  · rintro ⟨e | a, h, rfl⟩
    · exact ⟨path, _, [], by simp, h, .done _⟩
    · exact ⟨path, _, [], by simp, h, .done _⟩

theorem endsAt_map_ok {x : Attempt α} {g : α → β} {b : β} :
    Walk.EndsAt (do return g (← x) : Attempt β) path (.ok b) ↔
      ∃ a, Walk.EndsAt x path (.ok a) ∧ b = g a := by
  rw [endsAt_map]
  constructor
  · rintro ⟨e | a, h, heq⟩
    · cases heq
    · exact ⟨a, h, Except.ok.inj heq⟩
  · rintro ⟨a, h, rfl⟩
    exact ⟨.ok a, h, rfl⟩

theorem hasChoices_map {x : Attempt α} (hx : Walk.HasChoices x) {g : α → β} :
    Walk.HasChoices (do return g (← x) : Attempt β) := by
  refine Walk.HasChoices.bind hx ?_
  rintro path (e | a) -
  · trivial
  · trivial

theorem hasChoices_choose_bind {start stop : Nat} {k : Nat → Attempt β} (hoffer : start < stop)
    (hk : ∀ i, start ≤ i → i < stop → Walk.HasChoices (k i)) :
    Walk.HasChoices (choose start stop >>= k : Attempt β) :=
  ⟨hoffer, hk⟩

end Attempt

end Espalier
