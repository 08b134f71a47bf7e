import Espalier.Search.Conjecture
import Mathlib.Data.List.Forall2

/-!
# The ends of a walk

A walk is a finite tree of choices and its leaves are the ends that a search may come to.  Replaying
the recorded choices and moving the last one on goes through the leaves from left to right, so that
a search returns the first leaf that is no mismatch.  No decision is ever offered other choices than
those on record.

`Attempt.Gives` and `Attempt.Faults` say what the leaves of an attempt are, one construct of the
attempt at a time; nothing below looks into a walk any more.
-/

namespace Espalier

/-- The choices that an attempt has taken. -/
def Conjecture.choices (c : Conjecture) : List Nat := (c.decisions.take c.cursor).map (·.choice)

namespace Walk

variable {α β : Type}

/-- The ends of a walk from the choices of `ds` on. -/
def leavesFrom : Walk α → List Decision → List α
  | .done a, _ => [a]
  | .ask offer next, ds =>
    let i := (ds.head?.map (·.choice)).getD offer.start
    (next i).leavesFrom ds.tail ++
      (List.range' (i + 1) (offer.stop - (i + 1))).flatMap fun j => (next j).leavesFrom []

/-- The ends of a walk, in the order in which a search comes to them. -/
def leaves (w : Walk α) : List α := w.leavesFrom []

/-- Whether the decisions on record are ones that the walk asks for. -/
def Replays : Walk α → List Decision → Prop
  | _, [] => True
  | .done _, _ :: _ => False
  | .ask offer next, d :: ds => d.offer = offer ∧ (next d.choice).Replays ds

@[simp] theorem leaves_done (a : α) : (done a).leaves = [a] := rfl

theorem leaves_ask (offer : Offer) (next : Nat → Walk α) :
    (ask offer next).leaves = (next offer.start).leaves ++
      (List.range' (offer.start + 1) (offer.stop - (offer.start + 1))).flatMap
        fun i => (next i).leaves := rfl

@[simp] theorem replays_nil (w : Walk α) : w.Replays [] := by
  cases w <;> trivial

/-- The ends of a walk from the choices of `ds` on, each with the choices that lead to it. -/
def endsFrom : Walk α → List Decision → List (List Nat × α)
  | .done a, _ => [([], a)]
  | .ask offer next, ds =>
    let i := (ds.head?.map (·.choice)).getD offer.start
    ((next i).endsFrom ds.tail).map (Prod.map (i :: ·) id) ++
      (List.range' (i + 1) (offer.stop - (i + 1))).flatMap fun j =>
        ((next j).endsFrom []).map (Prod.map (j :: ·) id)

theorem map_snd_endsFrom (w : Walk α) (ds : List Decision) :
    (w.endsFrom ds).map Prod.snd = w.leavesFrom ds := by
  have hcons (i : Nat) (xs : List (List Nat × α)) :
      (xs.map (Prod.map (i :: ·) id)).map Prod.snd = xs.map Prod.snd := by
    simp [Function.comp_def]
  induction w generalizing ds with
  | done a => rfl
  | ask offer next ih =>
    simp only [endsFrom, leavesFrom, List.map_append, List.map_flatMap, hcons, ih]

/-- What one attempt does that replays `ds`: it comes to the first of the ends that are left, and
the decisions moved on are those of the next one. -/
theorem run_replays (w : Walk α) (pre ds : List Decision) {c : Conjecture}
    (hd : c.decisions = pre ++ ds) (hc : c.cursor = pre.length) (hw : w.Replays ds) :
    ∃ a c' path, w.run c = .ok a c' ∧ c'.decisions.take c'.cursor = pre ++ path ∧
      (∀ ds', bump path = some ds' →
        w.Replays ds' ∧ w.endsFrom ds = (path.map (·.choice), a) :: w.endsFrom ds') ∧
      (bump path = none → w.endsFrom ds = [(path.map (·.choice), a)]) := by
  induction w generalizing pre ds c with
  | done b =>
    obtain rfl : ds = [] := by
      cases ds with
      | nil => rfl
      | cons => exact hw.elim
    refine ⟨b, c, [], rfl, by simp [hd, hc], ?_, fun _ => rfl⟩
    intro ds' hb
    simp [bump] at hb
  | ask offer next ih =>
    -- The decision taken here, whether it is on record already or new.
    obtain ⟨d, rest, hoffer, hchoice, htail, hrest, hrun⟩ :
        ∃ (d : Decision) (rest : List Decision), d.offer = offer ∧
          d.choice = (ds.head?.map (·.choice)).getD offer.start ∧ rest = ds.tail ∧
          (next d.choice).Replays rest ∧
          (ask offer next).run c = (next d.choice).run ⟨pre ++ d :: rest, pre.length + 1⟩ := by
      cases ds with
      | nil =>
        refine ⟨⟨offer, offer.start⟩, [], rfl, rfl, rfl, by simp, ?_⟩
        simp [run, Conjecture.decide, hd, hc]
      | cons d rest =>
        obtain ⟨ho, hr⟩ := hw
        refine ⟨d, rest, ho, rfl, rfl, hr, ?_⟩
        simp [run, Conjecture.decide, hd, hc, ho]
    obtain ⟨a, c', path, hok, htake, hsome, hnone⟩ :=
      ih d.choice (pre ++ [d]) rest (c := ⟨pre ++ d :: rest, pre.length + 1⟩) (by simp) (by simp)
        hrest
    have hends : (ask offer next).endsFrom ds =
        ((next d.choice).endsFrom rest).map (Prod.map (d.choice :: ·) id) ++
        (List.range' (d.choice + 1) (offer.stop - (d.choice + 1))).flatMap fun j =>
          ((next j).endsFrom []).map (Prod.map (j :: ·) id) := by
      simp only [endsFrom, hchoice, htail]
    refine ⟨a, c', d :: path, hrun.trans hok, by simpa using htake, ?_, ?_⟩
    · intro ds' hb
      rw [bump] at hb
      split at hb
      next ds'' hds =>
        obtain rfl := Option.some.inj hb
        obtain ⟨hr, hl⟩ := hsome ds'' hds
        refine ⟨⟨hoffer, hr⟩, ?_⟩
        rw [hends, hl]
        simp [endsFrom]
      next hds =>
        split at hb
        next hstop =>
          obtain rfl := Option.some.inj hb
          have hrange : offer.stop - (d.choice + 1) = (offer.stop - (d.choice + 1 + 1)) + 1 := by
            rw [hoffer] at hstop
            omega
          refine ⟨⟨hoffer, by simp⟩, ?_⟩
          rw [hends, hnone hds, hrange, List.range'_succ]
          rfl
        next => cases hb
    · intro hb
      rw [bump] at hb
      split at hb
      next => cases hb
      next hds =>
        split at hb
        next => cases hb
        next hstop =>
          have hrange : offer.stop - (d.choice + 1) = 0 := by
            rw [hoffer] at hstop
            omega
          rw [hends, hnone hds, hrange]
          rfl

/-! ## The loop of a search

`Searches` goes round by round: an attempt from the first decision on and, where it fails, the
decisions moved on. -/

/-- A search from the conjecture `c` on comes to the answer `r`, after attempts that fail at the
choices of `tried`, one after the other. -/
inductive Searches (w : Walk (Except Halt α)) :
    Conjecture → (tried : List (List Nat)) → (r : Except Fault (Option α)) → Prop where
  | found {c c' : Conjecture} {a : α} (hrun : w.run c.start = .ok (.ok a) c') :
      Searches w c [] (.ok (some a))
  | fault {c c' : Conjecture} {e : Fault} (hrun : w.run c.start = .ok (.error (.fault e)) c') :
      Searches w c [] (.error e)
  | reshaped {c c' : Conjecture} {e : Fault} (hrun : w.run c.start = .error e c') :
      Searches w c [] (.error e)
  | exhausted {c c' c'' : Conjecture} {m : Mismatch}
      (hrun : w.run c.start = .ok (.error (.mismatch m)) c')
      (hi : (c'.report false).increment = (false, c'')) : Searches w c [c'.choices] (.ok none)
  | retry {c c' c'' : Conjecture} {m : Mismatch} {tried : List (List Nat)}
      {r : Except Fault (Option α)} (hrun : w.run c.start = .ok (.error (.mismatch m)) c')
      (hi : (c'.report false).increment = (true, c'')) (h : Searches w c'' tried r) :
      Searches w c (c'.choices :: tried) r

theorem solveFrom_eq_of_searches {w : Walk (Except Halt α)} {c : Conjecture}
    {tried : List (List Nat)} {r : Except Fault (Option α)} (h : w.Searches c tried r) :
    w.solveFrom c = r := by
  induction h with
  | found hrun | fault hrun | reshaped hrun =>
    rw [solveFrom]
    split <;> simp_all
  | exhausted hrun hi | retry hrun hi _ ih =>
    rw [solveFrom]
    split <;> simp_all
    split <;> simp_all

/-- The first of some ends that is no mismatch. -/
def firstSettled : List (Except Halt α) → Except Fault (Option α)
  | [] => .ok none
  | .ok a :: _ => .ok (some a)
  | .error (.fault e) :: _ => .error e
  | .error (.mismatch _) :: rest => firstSettled rest

/-- The choices of the ends that come before the first one that is no mismatch. -/
def beforeSettled : List (List Nat × Except Halt α) → List (List Nat)
  | (path, .error (.mismatch _)) :: rest => path :: beforeSettled rest
  | _ => []

/-- A search goes through the ends that are left until it comes to one that is no mismatch. -/
theorem searches_of_replays (w : Walk (Except Halt α)) (c : Conjecture)
    (hw : w.Replays c.decisions) :
    w.Searches c (beforeSettled (w.endsFrom c.decisions))
      (firstSettled ((w.endsFrom c.decisions).map Prod.snd)) := by
  generalize hends : w.endsFrom c.decisions = ends
  induction ends generalizing c with
  | nil =>
    obtain ⟨a, c', path, -, -, hsome, hnone⟩ :=
      w.run_replays [] c.decisions (c := c.start) rfl rfl hw
    cases hb : bump path with
    | none => cases hends.symm.trans (hnone hb)
    | some ds => cases hends.symm.trans (hsome ds hb).2
  | cons e rest ih =>
    obtain ⟨a, c', path, hrun, htake, hsome, hnone⟩ :=
      w.run_replays [] c.decisions (c := c.start) rfl rfl hw
    have hreport : (c'.report false).decisions = path := by simpa [Conjecture.report] using htake
    have hhead : e = (c'.choices, a) := by
      rw [Conjecture.choices, htake, List.nil_append]
      cases hb : bump path with
      | none => exact (List.cons.inj (hends.symm.trans (hnone hb))).1
      | some ds => exact (List.cons.inj (hends.symm.trans (hsome ds hb).2)).1
    subst hhead
    match a with
    | .ok a => exact .found hrun
    | .error (.fault e) => exact .fault hrun
    | .error (.mismatch m) =>
      cases hb : bump path with
      | none =>
        obtain rfl : rest = [] := (List.cons.inj (hends.symm.trans (hnone hb))).2
        exact .exhausted hrun (by rw [Conjecture.increment, hreport, hb])
      | some ds =>
        obtain ⟨hr, hl⟩ := hsome ds hb
        have hrest : w.endsFrom ds = rest := (List.cons.inj (hl.symm.trans hends)).2
        have hnext : (c'.report false).increment = (true, ⟨ds, c'.cursor⟩) := by
          rw [Conjecture.increment, hreport, hb]
          rfl
        exact .retry hrun hnext (ih _ hr hrest)

theorem solveFrom_eq (w : Walk (Except Halt α)) (c : Conjecture) (hw : w.Replays c.decisions) :
    w.solveFrom c = firstSettled (w.leavesFrom c.decisions) := by
  rw [solveFrom_eq_of_searches (w.searches_of_replays c hw), map_snd_endsFrom]

/-- A search returns the first end of its walk that is no mismatch. -/
theorem solve_eq (w : Walk (Except Halt α)) : w.solve = firstSettled w.leaves :=
  w.solveFrom_eq .empty (by simp [Conjecture.empty])

theorem leaves_bind (w : Walk α) (k : α → Walk β) :
    (w.bind k).leaves = w.leaves.flatMap fun a => (k a).leaves := by
  induction w with
  | done a => simp [bind]
  | ask offer next ih => simp [bind, leaves_ask, ih, List.flatMap_assoc]

/-- Asking for choices without an alternative does not change where a walk may end. -/
theorem leaves_padTo (n : Nat) (w : Walk (Except Halt α)) : (padTo n w).leaves = w.leaves := by
  induction w generalizing n with
  | done r =>
    match r with
    | .error (.mismatch m) =>
      induction n with
      | zero => rfl
      | succ n ih => simpa [padTo, List.replicate_succ, leaves_ask] using ih
    | .error (.fault e) => rfl
    | .ok a => rfl
  | ask offer next ih => simp [padTo, leaves_ask, ih]

end Walk

namespace Attempt

variable {α β γ : Type}

/-- The attempt may succeed with `a`. -/
def Gives (w : Attempt α) (a : α) : Prop := .ok a ∈ Walk.leaves w

/-- The attempt may end with the fault `e`. -/
def Faults (w : Attempt α) (e : Fault) : Prop := .error (.fault e) ∈ Walk.leaves w

section Constructs

variable {a : α} {b : β} {e : Fault} {x : Attempt α} {k : α → Attempt β}

theorem leaves_bind (x : Attempt α) (k : α → Attempt β) :
    Walk.leaves (x >>= k : Attempt β) = (Walk.leaves x).flatMap fun
      | .ok a => Walk.leaves (k a)
      | .error h => [.error h] := by
  refine (Walk.leaves_bind x _).trans (congrArg (fun g => (Walk.leaves x).flatMap g) ?_)
  funext r
  cases r <;> rfl

theorem leaves_bind_congr (x : Attempt α) {k k' : α → Attempt β}
    (h : ∀ a, Walk.leaves (k a) = Walk.leaves (k' a)) :
    Walk.leaves (x >>= k : Attempt β) = Walk.leaves (x >>= k' : Attempt β) := by
  rw [leaves_bind, leaves_bind]
  refine congrArg (fun g => (Walk.leaves x).flatMap g) ?_
  funext r
  cases r with
  | ok a => exact h a
  | error h => rfl

theorem leaves_bind_assoc {γ : Type} (x : Attempt α) (k : α → Attempt β) (k' : β → Attempt γ) :
    Walk.leaves (x >>= k >>= k' : Attempt γ) =
      Walk.leaves (x >>= fun a => k a >>= k' : Attempt γ) := by
  rw [leaves_bind, leaves_bind, leaves_bind, List.flatMap_assoc]
  refine congrArg (fun g => (Walk.leaves x).flatMap g) ?_
  funext r
  cases r with
  | ok a => exact (leaves_bind (k a) k').symm
  | error h => rfl

theorem leaves_bind_pure (x : Attempt α) :
    Walk.leaves (x >>= pure : Attempt α) = Walk.leaves x := by
  rw [leaves_bind]
  refine Eq.trans (congrArg (fun g => (Walk.leaves x).flatMap g) ?_) (List.flatMap_singleton' _)
  funext r
  cases r <;> rfl

@[simp] theorem gives_pure {a' : α} : (pure a : Attempt α).Gives a' ↔ a' = a := by
  change Except.ok a' ∈ [Except.ok a] ↔ _
  simp

@[simp] theorem faults_pure : ¬ (pure a : Attempt α).Faults e := by
  change Except.error (Halt.fault e) ∉ [Except.ok a]
  simp

@[simp] theorem gives_bind : (x >>= k).Gives b ↔ ∃ a, x.Gives a ∧ (k a).Gives b := by
  simp only [Gives, leaves_bind, List.mem_flatMap]
  constructor
  · rintro ⟨a | a, ha, hb⟩
    · simp at hb
    · exact ⟨a, ha, hb⟩
  · rintro ⟨a, ha, hb⟩
    exact ⟨.ok a, ha, hb⟩

@[simp] theorem faults_bind :
    (x >>= k).Faults e ↔ x.Faults e ∨ ∃ a, x.Gives a ∧ (k a).Faults e := by
  simp only [Gives, Faults, leaves_bind, List.mem_flatMap]
  constructor
  · rintro ⟨h | a, ha, hb⟩
    · simp only [List.mem_singleton, Except.error.injEq] at hb
      exact .inl (hb ▸ ha)
    · exact .inr ⟨a, ha, hb⟩
  · rintro (h | ⟨a, ha, hb⟩)
    · exact ⟨_, h, by simp⟩
    · exact ⟨.ok a, ha, hb⟩

@[simp] theorem gives_mismatch {m : Mismatch} : ¬ (mismatch m : Attempt α).Gives a := by
  change Except.ok a ∉ [Except.error (Halt.mismatch m)]
  simp

@[simp] theorem faults_mismatch {m : Mismatch} : ¬ (mismatch m : Attempt α).Faults e := by
  change Except.error (Halt.fault e) ∉ [Except.error (Halt.mismatch m)]
  simp

@[simp] theorem gives_fault {e' : Fault} : ¬ (fault e' : Attempt α).Gives a := by
  change Except.ok a ∉ [Except.error (Halt.fault e')]
  simp

@[simp] theorem faults_fault {e' : Fault} : (fault e' : Attempt α).Faults e ↔ e = e' := by
  change Except.error (Halt.fault e) ∈ [Except.error (Halt.fault e')] ↔ _
  simp

@[simp] theorem gives_settled {r : Except Halt α} : (settled r).Gives a ↔ r = .ok a := by
  change Except.ok a ∈ [r] ↔ _
  simp [eq_comm]

@[simp] theorem faults_settled {r : Except Halt α} :
    (settled r).Faults e ↔ r = .error (.fault e) := by
  change Except.error (Halt.fault e) ∈ [r] ↔ _
  simp [eq_comm]

theorem leaves_choose (start stop : Nat) : Walk.leaves (choose start stop) =
    (start :: List.range' (start + 1) (stop - (start + 1))).map Except.ok := by
  have hlift : choose start stop = (Walk.ask ⟨start, stop⟩ fun i => .done (.ok i)) := rfl
  rw [hlift, Walk.leaves_ask]
  simp [List.map_eq_flatMap]

theorem leaves_choose_zero {n : Nat} (h : 0 < n) :
    Walk.leaves (choose 0 n) = (List.range n).map Except.ok := by
  obtain ⟨n, rfl⟩ := Nat.exists_eq_add_of_lt h
  rw [leaves_choose, List.range_eq_range', Nat.zero_add, List.range'_succ]
  rfl

/-- A choice is among those on offer; without any, the first is taken all the same. -/
@[simp] theorem gives_choose {start stop i : Nat} :
    (choose start stop).Gives i ↔ i = start ∨ start < i ∧ i < stop := by
  rw [Gives, leaves_choose]
  simp only [List.map_cons, List.mem_cons, Except.ok.injEq, List.mem_map, exists_eq_right,
    List.mem_range'_1]
  omega

@[simp] theorem faults_choose {start stop : Nat} : ¬ (choose start stop).Faults e := by
  rw [Faults, leaves_choose]
  simp

@[simp] theorem gives_padTo {n : Nat} {w : Attempt α} :
    Attempt.Gives (Walk.padTo n w) a ↔ w.Gives a := by
  rw [Gives, Walk.leaves_padTo]
  rfl

@[simp] theorem faults_padTo {n : Nat} {w : Attempt α} :
    Attempt.Faults (Walk.padTo n w) e ↔ w.Faults e := by
  rw [Faults, Walk.leaves_padTo]
  rfl

end Constructs

section Loops

variable {f : β → α → Attempt β} {b b' : β} {a : α} {as : List α} {e : Fault}

@[simp] theorem gives_foldlM_nil : ([].foldlM f b).Gives b' ↔ b' = b := by
  simp [List.foldlM_nil]

@[simp] theorem gives_foldlM_cons :
    ((a :: as).foldlM f b).Gives b' ↔ ∃ b₁, (f b a).Gives b₁ ∧ (as.foldlM f b₁).Gives b' := by
  simp [List.foldlM_cons]

@[simp] theorem faults_foldlM_nil : ¬ ([].foldlM f b).Faults e := by
  simp [List.foldlM_nil]

@[simp] theorem faults_foldlM_cons : ((a :: as).foldlM f b).Faults e ↔
    (f b a).Faults e ∨ ∃ b₁, (f b a).Gives b₁ ∧ (as.foldlM f b₁).Faults e := by
  simp [List.foldlM_cons]

/-- What a loop preserves, from what its steps do: `inv` speaks of the elements done so far. -/
theorem foldlM_invariant {as : List α} {b b' : β} (inv : List α → β → Prop) (h₀ : inv [] b)
    (step : ∀ done a rest b b', as = done ++ a :: rest → inv done b → (f b a).Gives b' →
      inv (done ++ [a]) b') (h : (as.foldlM f b).Gives b') : inv as b' := by
  suffices ∀ done rest b, as = done ++ rest → inv done b → (rest.foldlM f b).Gives b' →
    inv as b' from
    this [] as b rfl h₀ h
  intro done rest
  induction rest generalizing done with
  | nil =>
    intro b has hb hg
    obtain rfl := gives_foldlM_nil.mp hg
    simpa [has] using hb
  | cons a rest ih =>
    intro b has hb hg
    obtain ⟨b₁, hstep, hrest⟩ := gives_foldlM_cons.mp hg
    exact ih (done ++ [a]) b₁ (by simp [has]) (step done a rest b b₁ has hb hstep) hrest

/-- A loop that ends with a fault does so in one of its steps, after steps that succeeded. -/
theorem exists_of_faults_foldlM {as : List α} {b : β} (h : (as.foldlM f b).Faults e) :
    ∃ done a rest b₁, as = done ++ a :: rest ∧ (done.foldlM f b).Gives b₁ ∧ (f b₁ a).Faults e := by
  induction as generalizing b with
  | nil => exact (faults_foldlM_nil h).elim
  | cons a as ih =>
    rcases faults_foldlM_cons.mp h with h | ⟨b₁, hg, hf⟩
    · exact ⟨[], a, as, b, rfl, by simp, h⟩
    · obtain ⟨done, a', rest, b₂, has, hdone, hf⟩ := ih hf
      exact ⟨a :: done, a', rest, b₂, by simp [has],
        gives_foldlM_cons.mpr ⟨b₁, hg, hdone⟩, hf⟩

theorem gives_forM {g : α → Attempt PUnit} {u : PUnit} :
    (as.forM g).Gives u ↔ ∀ a ∈ as, (g a).Gives ⟨⟩ := by
  induction as with
  | nil => simp
  | cons a as ih =>
    change (g a >>= fun _ => as.forM g).Gives u ↔ _
    rw [gives_bind, List.forall_mem_cons, ← ih]
    constructor
    · rintro ⟨_, h⟩
      exact h
    · intro h
      exact ⟨_, h⟩

theorem faults_forM {g : α → Attempt PUnit} (h : (as.forM g).Faults e) :
    ∃ a ∈ as, (g a).Faults e := by
  induction as with
  | nil => simp at h
  | cons a as ih =>
    change (g a >>= fun _ => as.forM g).Faults e at h
    rw [faults_bind] at h
    rcases h with h | ⟨_, _, h⟩
    · exact ⟨a, by simp, h⟩
    · obtain ⟨a', ha', h⟩ := ih h
      exact ⟨a', by simp [ha'], h⟩

end Loops

/-- Some choices bring the attempt to a result with `Q`, or else to a fault. -/
def Ends (w : Attempt α) (Q : α → Prop) : Prop :=
  (∃ a, w.Gives a ∧ Q a) ∨ ∃ e, w.Faults e

theorem ends_bind {x : Attempt α} {k : α → Attempt β} {P : α → Prop} {Q : β → Prop} (hx : x.Ends P)
    (hk : ∀ a, x.Gives a → P a → (k a).Ends Q) : (x >>= k).Ends Q := by
  rcases hx with ⟨a, hg, ha⟩ | ⟨e, hf⟩
  · rcases hk a hg ha with ⟨b, hg', hb⟩ | ⟨e, hf⟩
    · exact .inl ⟨b, gives_bind.mpr ⟨a, hg, hg'⟩, hb⟩
    · exact .inr ⟨e, faults_bind.mpr (.inr ⟨a, hg, hf⟩)⟩
  · exact .inr ⟨e, faults_bind.mpr (.inl hf)⟩

/-- A loop comes to an end if its steps do. -/
theorem ends_foldlM {f : β → α → Attempt β} {Q : β → Prop} {as : List α} {b : β}
    (hb : Q b) (h : ∀ a ∈ as, ∀ b, Q b → (f b a).Ends Q) : (as.foldlM f b).Ends Q := by
  induction as generalizing b with
  | nil => exact .inl ⟨b, gives_foldlM_nil.mpr rfl, hb⟩
  | cons a as ih =>
    rw [List.foldlM_cons]
    exact ends_bind (h a (by simp) b hb) fun b₁ _ hb₁ => ih hb₁ fun a ha => h a (by simp [ha])

theorem ends_forM {g : α → Attempt PUnit} {as : List α} (h : ∀ a ∈ as, (g a).Ends fun _ => True) :
    (as.forM g).Ends fun _ => True := by
  induction as with
  | nil => exact .inl ⟨⟨⟩, gives_pure.mpr rfl, trivial⟩
  | cons a as ih =>
    change (g a >>= fun _ => as.forM g).Ends _
    exact ends_bind (h a (by simp)) fun _ _ _ => ih fun a ha => h a (by simp [ha])

/-! ## Attempts side by side -/

/-- Two ends agree: they are the same failure, or results that are related. -/
inductive EndsAlike (R : α → β → Prop) : Except Halt α → Except Halt β → Prop where
  | ok {a : α} {b : β} (h : R a b) : EndsAlike R (.ok a) (.ok b)
  | error (h : Halt) : EndsAlike R (.error h) (.error h)

/-- Two attempts come to the same ends in the same order, but for related results. -/
def Mirrors (R : α → β → Prop) (x : Attempt α) (y : Attempt β) : Prop :=
  List.Forall₂ (EndsAlike R) (Walk.leaves x) (Walk.leaves y)

section Mirrors

variable {δ : Type} {R : α → β → Prop} {S : γ → δ → Prop} {x : Attempt α} {y : Attempt β}

theorem mirrors_pure {a : α} {b : β} (h : R a b) :
    Mirrors R (pure a : Attempt α) (pure b : Attempt β) := .cons (.ok h) .nil

theorem mirrors_fault (e : Fault) : Mirrors R (fault e : Attempt α) (fault e : Attempt β) :=
  .cons (.error _) .nil

theorem mirrors_mismatch (m : Mismatch) :
    Mirrors R (mismatch m : Attempt α) (mismatch m : Attempt β) := .cons (.error _) .nil

theorem mirrors_padTo (n : Nat) (h : Mirrors R x y) :
    Mirrors R (Walk.padTo n x) (Walk.padTo n y) := by
  rw [Mirrors, Walk.leaves_padTo, Walk.leaves_padTo]
  exact h

theorem mirrors_refl (x : Attempt α) : Mirrors Eq x x := by
  refine List.forall₂_same.mpr fun r _ => ?_
  cases r with
  | ok a => exact .ok rfl
  | error h => exact .error h

theorem mirrors_bind {k : α → Attempt γ} {k' : β → Attempt δ} (hx : Mirrors R x y)
    (hk : ∀ a b, R a b → Mirrors S (k a) (k' b)) : Mirrors S (x >>= k) (y >>= k') := by
  rw [Mirrors, leaves_bind, leaves_bind]
  refine List.rel_flatMap hx fun r r' hr => ?_
  cases hr with
  | ok h => exact hk _ _ h
  | error h => exact .cons (.error h) .nil

theorem mirrors_foldlM {f : α → γ → Attempt α} {f' : β → δ → Attempt β} {as : List γ} {bs : List δ}
    (has : List.Forall₂ S as bs) {a : α} {b : β} (hab : R a b)
    (hstep : ∀ a b c d, R a b → S c d → Mirrors R (f a c) (f' b d)) :
    Mirrors R (as.foldlM f a) (bs.foldlM f' b) := by
  induction has generalizing a b with
  | nil => exact mirrors_pure hab
  | cons hcd _ ih =>
    rw [List.foldlM_cons, List.foldlM_cons]
    exact mirrors_bind (hstep _ _ _ _ hab hcd) fun a' b' hab' => ih hab'

theorem mirrors_forM {g : γ → Attempt PUnit} {g' : δ → Attempt PUnit} {as : List γ} {bs : List δ}
    (has : List.Forall₂ S as bs) (hstep : ∀ c d, S c d → Mirrors Eq (g c) (g' d)) :
    Mirrors Eq (as.forM g) (bs.forM g') := by
  induction has with
  | nil => exact mirrors_refl _
  | cons hcd _ ih => exact mirrors_bind (hstep _ _ hcd) fun _ _ _ => ih

end Mirrors

end Attempt

namespace Walk

variable {α : Type}

/-- What the first end that is no mismatch says about all of them. -/
theorem firstSettled_cases (rs : List (Except Halt α)) :
    (∃ e, firstSettled rs = .error e ∧ .error (.fault e) ∈ rs) ∨
      (∃ a, firstSettled rs = .ok (some a) ∧ .ok a ∈ rs) ∨
      (firstSettled rs = .ok none ∧ ∀ a, .ok a ∉ rs) := by
  induction rs with
  | nil => exact .inr (.inr ⟨rfl, by simp⟩)
  | cons r rs ih =>
    match r with
    | .ok a => exact .inr (.inl ⟨a, rfl, by simp⟩)
    | .error (.fault e) => exact .inl ⟨e, rfl, by simp⟩
    | .error (.mismatch m) =>
      rcases ih with ⟨e, h, hm⟩ | ⟨a, h, hm⟩ | ⟨h, hm⟩
      · exact .inl ⟨e, h, by simp [hm]⟩
      · exact .inr (.inl ⟨a, h, by simp [hm]⟩)
      · exact .inr (.inr ⟨h, by simp [hm]⟩)

theorem faults_of_solve_eq_error {w : Attempt α} {e : Fault} (h : Walk.solve w = .error e) :
    w.Faults e := by
  rw [solve_eq] at h
  rcases firstSettled_cases w.leaves with ⟨e', h', hm⟩ | ⟨a, h', _⟩ | ⟨h', _⟩
  · rw [h] at h'
    obtain rfl := Except.error.inj h'
    exact hm
  · simp [h] at h'
  · simp [h] at h'

theorem gives_of_solve_eq_some {w : Attempt α} {a : α} (h : Walk.solve w = .ok (some a)) :
    w.Gives a := by
  rw [solve_eq] at h
  rcases firstSettled_cases w.leaves with ⟨e', h', _⟩ | ⟨a', h', hm⟩ | ⟨h', _⟩
  · simp [h] at h'
  · rw [h] at h'
    obtain rfl : a = a' := by simpa using h'
    exact hm
  · simp [h] at h'

theorem eq_mismatch_of_firstSettled {rs : List (Except Halt α)} (h : firstSettled rs = .ok none) :
    ∀ r ∈ rs, ∃ m, r = .error (.mismatch m) := by
  induction rs with
  | nil => simp
  | cons r rs ih =>
    match r with
    | .ok a => cases h
    | .error (.fault e) => cases h
    | .error (.mismatch m) =>
      rw [List.forall_mem_cons]
      exact ⟨⟨m, rfl⟩, ih h⟩

/-- A search that finds nothing has come to no end but mismatches. -/
theorem not_ends_of_solve_eq_none {w : Attempt α} {Q : α → Prop} (h : Walk.solve w = .ok none) :
    ¬ w.Ends Q := by
  rw [solve_eq] at h
  have hall := eq_mismatch_of_firstSettled h
  rintro (⟨a, hg, -⟩ | ⟨e, hf⟩)
  · obtain ⟨m, hm⟩ := hall _ hg
    cases hm
  · obtain ⟨m, hm⟩ := hall _ hf
    cases hm

/-- Two searches come to the same answer, but for related results. -/
inductive SolvesAlike {β : Type} (R : α → β → Prop) :
    Except Fault (Option α) → Except Fault (Option β) → Prop where
  | error (e : Fault) : SolvesAlike R (.error e) (.error e)
  | none : SolvesAlike R (.ok none) (.ok none)
  | some {a : α} {b : β} (h : R a b) : SolvesAlike R (.ok (some a)) (.ok (some b))

theorem eq_none_iff_of_alike {β : Type} {R : α → β → Prop} {r : Except Fault (Option α)}
    {r' : Except Fault (Option β)} (h : SolvesAlike R r r') : r = .ok none ↔ r' = .ok none := by
  cases h <;> simp

theorem firstSettled_alike {β : Type} {R : α → β → Prop} {rs : List (Except Halt α)}
    {rs' : List (Except Halt β)} (h : List.Forall₂ (Attempt.EndsAlike R) rs rs') :
    SolvesAlike R (firstSettled rs) (firstSettled rs') := by
  induction h with
  | nil => exact .none
  | cons hr _ ih =>
    cases hr with
    | ok h => exact .some h
    | error h =>
      cases h with
      | mismatch m => exact ih
      | fault e => exact .error e

theorem solve_alike {β : Type} {R : α → β → Prop} {x : Attempt α} {y : Attempt β}
    (h : Attempt.Mirrors R x y) : SolvesAlike R (Walk.solve x) (Walk.solve y) := by
  rw [solve_eq, solve_eq]
  exact firstSettled_alike h

theorem firstSettled_append_of_none {rs rs' : List (Except Halt α)}
    (h : firstSettled rs = .ok none) : firstSettled (rs ++ rs') = firstSettled rs' := by
  induction rs with
  | nil => rfl
  | cons r rs ih =>
    match r with
    | .ok a => cases h
    | .error (.fault e) => cases h
    | .error (.mismatch m) => exact ih h

theorem firstSettled_append_of_ne {rs rs' : List (Except Halt α)} (h : firstSettled rs ≠ .ok none) :
    firstSettled (rs ++ rs') = firstSettled rs := by
  induction rs with
  | nil => exact (h rfl).elim
  | cons r rs ih =>
    match r with
    | .ok a => rfl
    | .error (.fault e) => rfl
    | .error (.mismatch m) => exact ih h

theorem firstSettled_flatMap_of_none {ι : Type} {is : List ι} {g : ι → List (Except Halt α)}
    (h : ∀ i ∈ is, firstSettled (g i) = .ok none) : firstSettled (is.flatMap g) = .ok none := by
  induction is with
  | nil => rfl
  | cons i is ih =>
    rw [List.forall_mem_cons] at h
    rw [List.flatMap_cons, firstSettled_append_of_none h.1, ih h.2]

/-- Of a row of results, the first one that is not a mismatch throughout decides. -/
theorem firstSettled_flatMap_range {g : Nat → List (Except Halt α)} {i n : Nat} (hi : i < n)
    (hbefore : ∀ j < i, firstSettled (g j) = .ok none) (h : firstSettled (g i) ≠ .ok none) :
    firstSettled ((List.range n).flatMap g) = firstSettled (g i) := by
  obtain ⟨m, rfl⟩ : ∃ m, n = i + (m + 1) := ⟨n - i - 1, by omega⟩
  have hnone : firstSettled ((List.range i).flatMap g) = .ok none :=
    firstSettled_flatMap_of_none fun j hj => hbefore j (List.mem_range.mp hj)
  rw [List.range_add, List.flatMap_append, firstSettled_append_of_none hnone,
    List.range_succ_eq_map, List.map_cons, List.flatMap_cons]
  exact firstSettled_append_of_ne h

/-- An attempt that cannot end with a fault is decided by its search. -/
theorem exists_solve_eq_ok {w : Attempt α} (h : ∀ e, ¬ w.Faults e) :
    ∃ r, Walk.solve w = .ok r ∧ (r.isSome ↔ ∃ a, w.Gives a) := by
  rw [solve_eq]
  rcases firstSettled_cases w.leaves with ⟨e, _, hm⟩ | ⟨a, h', hm⟩ | ⟨h', hm⟩
  · exact (h e hm).elim
  · exact ⟨some a, h', by simpa using ⟨a, hm⟩⟩
  · exact ⟨none, h', by simpa [Attempt.Gives] using hm⟩

end Walk

end Espalier
