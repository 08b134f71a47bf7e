import Espalier.Search.Fault
import Espalier.Total

/-! # Backtracking by conjecture

An attempt asks for a choice wherever there is one.  A conjecture records the choices of the last
attempt and replays them in the next, the last one moved on, so that the attempts go through all
combinations in lexicographic order.  `Walk` is the attempt as a tree of choices, and `Walk.solve`
is the search for the first choices under which it succeeds.
-/

namespace Espalier

structure Decision where
  offer : Offer
  choice : Nat
deriving DecidableEq, Repr

/-- The recorded decisions, in the order in which they were asked for, and how many of them the
current attempt has replayed. -/
structure Conjecture where
  decisions : List Decision
  cursor : Nat
deriving DecidableEq, Repr

/-- Move the last decision on that can be moved on, and forget those after it. -/
def bump : List Decision → Option (List Decision)
  | [] => none
  | d :: ds =>
    match bump ds with
    | some ds' => some (d :: ds')
    | none =>
      if d.choice + 1 < d.offer.stop then some [{ d with choice := d.choice + 1 }] else none

namespace Conjecture

def empty : Conjecture := ⟨[], 0⟩

/-- Begin an attempt. -/
def start (c : Conjecture) : Conjecture := { c with cursor := 0 }

/-- The choice for the next decision.  A new decision begins with the first choice on offer; one on
record is replayed and has to be offered the same choices as before. -/
def decide (offer : Offer) : EStateM Fault Conjecture Nat := fun c =>
  match c.decisions[c.cursor]? with
  | some d =>
    if d.offer = offer then .ok d.choice { c with cursor := c.cursor + 1 }
    else .error (.decisionReshaped c.cursor d.offer offer) { c with cursor := c.cursor + 1 }
  | none =>
    .ok offer.start
      { decisions := c.decisions ++ [⟨offer, offer.start⟩], cursor := c.cursor + 1 }

/-- End an attempt.  One that failed voids the decisions that it did not come to. -/
def report (c : Conjecture) (ok : Bool) : Conjecture :=
  if ok then c else { c with decisions := c.decisions.take c.cursor }

/-- Go on to the next combination, and say whether there is one. -/
def increment (c : Conjecture) : Bool × Conjecture :=
  match bump c.decisions with
  | some ds => (true, { c with decisions := ds })
  | none => (false, { c with decisions := [] })

theorem bump_of_increment {c c' : Conjecture} (h : c.increment = (true, c')) :
    bump c.decisions = some c'.decisions := by
  unfold increment at h
  split at h
  next hb => rw [hb, ← (Prod.mk.inj h).2]
  next => cases (Prod.mk.inj h).1

end Conjecture

/-- A computation that asks for choices. -/
inductive Walk (α : Type) where
  | done (a : α)
  | ask (offer : Offer) (next : Nat → Walk α)

namespace Walk

variable {α β : Type}

def bind : Walk α → (α → Walk β) → Walk β
  | .done a, k => k a
  | .ask offer next, k => .ask offer fun i => (next i).bind k

instance : Monad Walk where
  pure := .done
  bind := .bind

/-- Ask for one choice. -/
def choose (start stop : Nat) : Walk Nat := .ask ⟨start, stop⟩ .done

/-- Follow a walk under a conjecture. -/
def run : Walk α → EStateM Fault Conjecture α
  | .done a, c => .ok a c
  | .ask offer next, c =>
    match Conjecture.decide offer c with
    | .ok i c' => (next i).run c'
    | .error e c' => .error e c'

/-- How many ends of a walk are left when the choices of `ds` are the next to be tried. -/
def ahead : Walk α → List Decision → Nat
  | .done _, _ => 1
  | .ask offer next, ds =>
    let i := (ds.head?.map (·.choice)).getD offer.start
    (next i).ahead ds.tail +
      total ((List.range' (i + 1) (offer.stop - (i + 1))).map fun j => (next j).ahead [])

theorem ahead_pos (w : Walk α) (ds : List Decision) : 0 < w.ahead ds := by
  induction w generalizing ds with
  | done => exact Nat.one_pos
  | ask offer next ih => exact Nat.add_pos_left (ih _ _) _

/-- What an attempt leaves on record: it has replayed `path`, after what was replayed before it, and
moving the path on leaves less to try. -/
theorem ahead_bump_lt (w : Walk α) (pre ds : List Decision) {c c' : Conjecture} {a : α}
    (hd : c.decisions = pre ++ ds) (hc : c.cursor = pre.length) (h : w.run c = .ok a c') :
    ∃ path, c'.decisions.take c'.cursor = pre ++ path ∧
      ∀ ds', bump path = some ds' → w.ahead ds' < w.ahead ds := by
  induction w generalizing pre ds c with
  | done b =>
    obtain ⟨rfl, rfl⟩ : b = a ∧ c = c' := by simpa [run] using h
    exact ⟨[], by simp [hd, hc], by simp [bump]⟩
  | ask offer next ih =>
    -- The decision taken here, and the attempt that goes on from it.
    obtain ⟨d, rest, hoffer, hchoice, htail, hrun⟩ : ∃ (d : Decision) (rest : List Decision),
        d.offer = offer ∧ d.choice = (ds.head?.map (·.choice)).getD offer.start ∧ rest = ds.tail ∧
        (next d.choice).run ⟨pre ++ d :: rest, pre.length + 1⟩ = .ok a c' := by
      cases ds with
      | nil =>
        refine ⟨⟨offer, offer.start⟩, [], rfl, rfl, rfl, ?_⟩
        simpa [run, Conjecture.decide, hd, hc] using h
      | cons d rest =>
        have hget : c.decisions[c.cursor]? = some d := by simp [hd, hc]
        by_cases ho : d.offer = offer
        · refine ⟨d, rest, ho, rfl, rfl, ?_⟩
          simpa [run, Conjecture.decide, hget, ho, hd, hc] using h
        · simp [run, Conjecture.decide, hget, ho] at h
    obtain ⟨path, hpath, hlt⟩ := ih d.choice (pre ++ [d]) rest (by simp) (by simp) hrun
    refine ⟨d :: path, by simpa using hpath, ?_⟩
    have hahead : (ask offer next).ahead ds = (next d.choice).ahead rest +
        total ((List.range' (d.choice + 1) (offer.stop - (d.choice + 1))).map
          fun j => (next j).ahead []) := by
      simp only [ahead, hchoice, htail]
    intro ds' hb
    rw [bump] at hb
    split at hb
    next ds'' hds =>
      obtain rfl := Option.some.inj hb
      have := hlt ds'' hds
      simp only [ahead, List.head?_cons, Option.map_some, Option.getD_some,
        List.tail_cons] at hahead ⊢
      omega
    next =>
      split at hb
      next hstop =>
        obtain rfl := Option.some.inj hb
        have hrange : offer.stop - (d.choice + 1) = (offer.stop - (d.choice + 1 + 1)) + 1 := by
          rw [hoffer] at hstop
          omega
        rw [hahead, hrange, List.range'_succ, List.map_cons, total_cons]
        have := (next d.choice).ahead_pos rest
        simp only [ahead, List.head?_cons, Option.map_some, Option.getD_some, List.tail_cons]
        omega
      next => cases hb

/-- The result of a walk at the first combination of choices, from the recorded ones on, under which
it succeeds, if there is one.  A fault at an earlier combination ends the search. -/
def solveFrom (w : Walk (Except Halt α)) (c : Conjecture) : Except Fault (Option α) :=
  match _h : w.run c.start with
  | .error e _ => .error e
  | .ok (.error (.fault e)) _ => .error e
  | .ok (.ok a) _ => .ok (some a)
  | .ok (.error (.mismatch _)) c' =>
    match _hi : (c'.report false).increment with
    | (true, c'') => w.solveFrom c''
    | (false, _) => .ok none
termination_by w.ahead c.decisions
decreasing_by
  obtain ⟨path, hpath, hlt⟩ := w.ahead_bump_lt [] c.start.decisions rfl rfl _h
  exact hlt c''.decisions
    (by simpa [Conjecture.report, hpath] using Conjecture.bump_of_increment _hi)

/-- The result of a walk at the first combination of choices under which it succeeds. -/
def solve (w : Walk (Except Halt α)) : Except Fault (Option α) := w.solveFrom .empty

/-- Let a walk that ends in a mismatch ask for `n` choices in all, the missing ones without an
alternative. -/
def padTo : (n : Nat) → Walk (Except Halt α) → Walk (Except Halt α)
  | n, .done (.error (.mismatch m)) => (List.replicate n ()).foldr
      (fun _ w => .ask ⟨0, 1⟩ fun _ => w) (.done (.error (.mismatch m)))
  | _, .done r => .done r
  | n, .ask offer next => .ask offer fun i => padTo (n - 1) (next i)

end Walk

/-- A walk whose every end is a result, a mismatch or a fault. -/
abbrev Attempt (α : Type) := ExceptT Halt Walk α

namespace Attempt

variable {α : Type}

def mismatch (m : Mismatch) : Attempt α := throw (.mismatch m)

def fault (e : Fault) : Attempt α := throw (.fault e)

/-- An attempt that has ended already. -/
def settled (r : Except Halt α) : Attempt α := Walk.done r

/-- Ask for one choice. -/
def choose (start stop : Nat) : Attempt Nat := ExceptT.lift (Walk.choose start stop)

end Attempt

end Espalier
