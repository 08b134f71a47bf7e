import Espalier.Forest.Order
import Mathlib.Data.Multiset.AddSub
import Mathlib.Data.List.Forall2

/-!
# Equal subtrees and equal runs

What it means for two runs to compare equal: ordered ones are equal element by element, and any two
are equal as multisets, up to equality of their elements.
-/

namespace Espalier

section Compare

variable {α : Type} {cmp : α → α → Ordering} {xs ys : List α}

theorem compareZip_self (hcmp : ∀ x, cmp x x = .eq) : compareZip cmp xs xs = .eq := by
  induction xs with
  | nil => rfl
  | cons x xs ih => rw [compareZip, hcmp, ih]; rfl

theorem forall₂_of_compareZip (hlen : xs.length = ys.length) (h : compareZip cmp xs ys = .eq) :
    List.Forall₂ (fun x y => cmp x y = .eq) xs ys := by
  induction xs generalizing ys with
  | nil =>
    obtain rfl := List.length_eq_zero_iff.mp hlen.symm
    exact .nil
  | cons x xs ih =>
    cases ys with
    | nil => cases hlen
    | cons y ys =>
      rw [compareZip, Ordering.then_eq_eq] at h
      exact .cons h.1 (ih (Nat.succ.inj hlen) h.2)

theorem compareZip_of_forall₂ (h : List.Forall₂ (fun x y => cmp x y = .eq) xs ys) :
    compareZip cmp xs ys = .eq := by
  induction h with
  | nil => rfl
  | cons hxy _ ih => rw [compareZip, hxy, ih]; rfl

open scoped List in
/-- What is removed was there beside the rest, in whatever order that is now. -/
theorem perm_swapRemove {i : Nat} (hi : i < ys.length) : ys.Perm (ys[i] :: swapRemove ys i) := by
  rcases List.eq_nil_or_concat' ys with rfl | ⟨init, last, rfl⟩
  · cases hi
  · rw [swapRemove, List.getLast?_concat]
    dsimp only
    rcases Nat.lt_or_ge i init.length with hlt | hge
    · rw [List.getElem_append_left hlt, List.set_append_left _ _ hlt, List.dropLast_concat]
      calc init ++ [last]
        _ ~ last :: init := List.perm_append_singleton last init
        _ ~ last :: init[i] :: init.eraseIdx i := (List.getElem_cons_eraseIdx_perm hlt).symm.cons _
        _ ~ init[i] :: last :: init.eraseIdx i := .swap _ _ _
        _ ~ init[i] :: init.set i last := (List.set_perm_cons_eraseIdx hlt last).symm.cons _
    · obtain rfl : i = init.length := by
        rw [List.length_append, List.length_singleton] at hi
        omega
      simp

theorem removeFirst?_eq_some {test : α → Bool} {rest : List α}
    (h : removeFirst? test ys = some rest) : ∃ y, test y = true ∧ ys.Perm (y :: rest) := by
  obtain ⟨i, hi, rfl⟩ := Option.map_eq_some_iff.mp h
  obtain ⟨hlt, htest, -⟩ := List.findIdx?_eq_some_iff_getElem.mp hi
  exact ⟨ys[i], htest, perm_swapRemove hlt⟩

theorem rel_of_forall₂ {β : Type} {r : α → β → Prop} {ys : List β} (h : List.Forall₂ r xs ys) :
    Multiset.Rel r (xs : Multiset α) (ys : Multiset β) := by
  induction h with
  | nil => exact .zero
  | cons hxy _ ih => exact .cons hxy ih

/-- Two related elements can be left out on both sides: whoever was paired with one of them takes
the partner of the other. -/
theorem rel_of_rel_cons {β : Type} {R : α → β → Prop} {a : α} {b : β} {s : Multiset α}
    {t : Multiset β} (h : Multiset.Rel R (a ::ₘ s) (b ::ₘ t))
    (hz : ∀ x ∈ s, ∀ y ∈ t, R a y → R x b → R x y) : Multiset.Rel R s t := by
  obtain ⟨y, t', hay, ht', heq⟩ := Multiset.rel_cons_left.mp h
  obtain ⟨-, rfl⟩ | ⟨-, u, rfl, rfl⟩ := Multiset.cons_eq_cons.mp heq
  · exact ht'
  · obtain ⟨x, s', hxb, hs', rfl⟩ := Multiset.rel_cons_right.mp ht'
    exact .cons (hz x (Multiset.mem_cons_self x s') y (Multiset.mem_cons_self y u) hay hxb) hs'

theorem rel_of_pairsUp (h : pairsUp cmp xs ys = true) :
    Multiset.Rel (fun x y => cmp x y = .eq) (xs : Multiset α) (ys : Multiset α) := by
  induction xs generalizing ys with
  | nil =>
    obtain rfl := List.isEmpty_iff.mp h
    exact .zero
  | cons x xs ih =>
    rw [pairsUp] at h
    split at h
    next rest hrest =>
      obtain ⟨y, hy, hperm⟩ := removeFirst?_eq_some hrest
      rw [Multiset.coe_eq_coe.mpr hperm]
      refine .cons ?_ (ih h)
      simpa using hy
    next => cases h

theorem compareRun_self (hcmp : ∀ x, cmp x x = .eq) (ordered : Bool) :
    compareRun cmp ordered xs xs = .eq := by
  rw [compareRun, Ordering.then_eq_eq]
  refine ⟨Nat.compare_eq_eq.mpr rfl, ?_⟩
  cases ordered with
  | true => exact compareZip_self hcmp
  | false =>
    -- An equal element may have been taken before its turn, but sorted the two are the same.
    rw [if_neg (by simp)]
    split
    · rfl
    · exact compareZip_self hcmp

/-- Ordered runs that compare equal are equal element by element. -/
theorem forall₂_of_compareRun (h : compareRun cmp true xs ys = .eq) :
    List.Forall₂ (fun x y => cmp x y = .eq) xs ys := by
  rw [compareRun, Ordering.then_eq_eq] at h
  exact forall₂_of_compareZip (Nat.compare_eq_eq.mp h.1) h.2

/-- Runs that compare equal are equal as multisets, whether they pair up or have to be sorted
first. -/
theorem rel_of_compareRun {ordered : Bool} (h : compareRun cmp ordered xs ys = .eq) :
    Multiset.Rel (fun x y => cmp x y = .eq) (xs : Multiset α) (ys : Multiset α) := by
  cases ordered with
  | true => exact rel_of_forall₂ (forall₂_of_compareRun h)
  | false =>
    rw [compareRun, Ordering.then_eq_eq] at h
    obtain ⟨hlen, h⟩ := h
    have hlen := Nat.compare_eq_eq.mp hlen
    rw [if_neg (by simp)] at h
    split at h
    next hpairs => exact rel_of_pairsUp hpairs
    next =>
      have hsorted : List.Forall₂ (fun x y => cmp x y = .eq) (sortBy cmp xs) (sortBy cmp ys) :=
        forall₂_of_compareZip (by simpa [sortBy] using hlen) h
      have hrel := rel_of_forall₂ hsorted
      rwa [sortBy, sortBy, Multiset.coe_eq_coe.mpr (List.mergeSort_perm xs _),
        Multiset.coe_eq_coe.mpr (List.mergeSort_perm ys _)] at hrel

end Compare

namespace Forest

variable {s : Schema}

@[simp] theorem compare_self (f : Forest s) (a : NodeId) : f.compare a a = .eq := by
  rw [compare, if_pos rfl]

end Forest

end Espalier
