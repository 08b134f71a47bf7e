import Espalier.Proofs.Order
import Espalier.Search.Coupling

/-!
# The structural order is a total preorder

Subtrees, runs and keys are compared by total preorders.  One level of a tree is compared as its
children are: if their comparison is a total preorder, then so is that of sequences, of collections,
which comes down to sorting them, of members and of nodes.  A forest has no cycles, so that this
goes through from the leaves up.
-/

namespace Espalier

/-! ## Comparing through a map -/

section Map

variable {α β : Type} {cmp : β → β → Ordering} {g : α → β}

theorem compareOption_map (a b : Option α) :
    compareOption cmp (a.map g) (b.map g) = compareOption (fun x y => cmp (g x) (g y)) a b := by
  cases a <;> cases b <;> rfl

theorem compareZip_map (xs ys : List α) :
    compareZip cmp (xs.map g) (ys.map g) = compareZip (fun x y => cmp (g x) (g y)) xs ys := by
  induction xs generalizing ys with
  | nil => rfl
  | cons x xs ih =>
    cases ys with
    | nil => rfl
    | cons y ys => rw [List.map_cons, List.map_cons, compareZip, compareZip, ih]

theorem swapRemove_map (ys : List α) (i : Nat) :
    swapRemove (ys.map g) i = (swapRemove ys i).map g := by
  rw [swapRemove, swapRemove, List.getLast?_map]
  cases ys.getLast? with
  | none => rfl
  | some last =>
    dsimp only [Option.map_some]
    rw [← List.map_set, List.map_dropLast]

theorem removeFirst?_map (test : β → Bool) (ys : List α) :
    removeFirst? test (ys.map g) = (removeFirst? (fun y => test (g y)) ys).map (List.map g) := by
  rw [removeFirst?, removeFirst?, List.findIdx?_map, Option.map_map]
  congr 1
  funext i
  exact swapRemove_map ys i

theorem pairsUp_map (xs ys : List α) :
    pairsUp cmp (xs.map g) (ys.map g) = pairsUp (fun x y => cmp (g x) (g y)) xs ys := by
  induction xs generalizing ys with
  | nil => rw [List.map_nil, pairsUp, pairsUp, List.isEmpty_map]
  | cons x xs ih =>
    rw [List.map_cons, pairsUp, pairsUp, removeFirst?_map]
    cases removeFirst? (fun y => cmp (g x) (g y) == .eq) ys with
    | none => rfl
    | some rest => exact ih rest

theorem sortBy_map (xs : List α) :
    sortBy cmp (xs.map g) = (sortBy (fun x y => cmp (g x) (g y)) xs).map g :=
  (List.map_mergeSort (f := g) (s := fun x y => (cmp x y).isLE) fun _ _ _ _ => rfl).symm

theorem compareRun_map (ordered : Bool) (xs ys : List α) :
    compareRun cmp ordered (xs.map g) (ys.map g) =
      compareRun (fun x y => cmp (g x) (g y)) ordered xs ys := by
  simp only [compareRun, List.length_map, compareZip_map, pairsUp_map, sortBy_map]

theorem Member.compare_map (m m' : Member α) :
    (m.map g).compare cmp (m'.map g) = m.compare (fun x y => cmp (g x) (g y)) m' := by
  cases m <;> cases m'
  case single.single => exact compareOption_map _ _
  case sequence.sequence => exact compareRun_map true _ _
  case collection.collection => exact compareRun_map false _ _
  all_goals rfl

theorem Node.compare_map (x y : Node α) :
    (x.map g).compare cmp (y.map g) = x.compare (fun c d => cmp (g c) (g d)) y := by
  have hmembers (ms ms' : List (Member α)) :
      compareZip (Member.compare cmp) (ms.map (Member.map g)) (ms'.map (Member.map g)) =
        compareZip (Member.compare fun c d => cmp (g c) (g d)) ms ms' := by
    rw [compareZip_map]
    congr 1
    funext m m'
    exact Member.compare_map m m'
  simp only [compare, map, List.length_map, hmembers]

end Map

/-! ## Orders of parts -/

section Laws

variable {α β : Type} {cmp : α → α → Ordering}

/-- To compare what elements are mapped to is to compare them. -/
theorem transCmp_comap [Std.TransCmp cmp] (g : β → α) :
    Std.TransCmp fun x y => cmp (g x) (g y) where
  eq_swap := Std.OrientedCmp.eq_swap
  isLE_trans := Std.TransCmp.isLE_trans

instance : Std.TransCmp Value.compare where
  eq_swap {a b} := by
    cases a <;> cases b
    case bool.bool => exact Std.OrientedOrd.eq_swap
    case int.int => exact Std.OrientedOrd.eq_swap
    case str.str => exact Std.OrientedOrd.eq_swap
    all_goals rfl
  isLE_trans {a b c} hab hbc := by
    cases a <;> cases b <;> cases c
    case bool.bool.bool => exact Std.TransOrd.isLE_trans hab hbc
    case int.int.int => exact Std.TransOrd.isLE_trans hab hbc
    case str.str.str => exact Std.TransOrd.isLE_trans hab hbc
    all_goals
      first | rfl | exact (Bool.false_ne_true hab).elim | exact (Bool.false_ne_true hbc).elim

instance [Std.TransCmp cmp] : Std.TransCmp (compareOption cmp) where
  eq_swap {a b} := by
    cases a <;> cases b
    case some.some a b => exact (Std.OrientedCmp.eq_swap : cmp a b = (cmp b a).swap)
    all_goals rfl
  isLE_trans {a b c} hab hbc := by
    cases a <;> cases b <;> cases c
    case some.some.some a b c =>
      exact (Std.TransCmp.isLE_trans hab hbc : (cmp a c).isLE = true)
    all_goals
      first | rfl | exact (Bool.false_ne_true hab).elim | exact (Bool.false_ne_true hbc).elim

/-- Lists of one length are compared lexicographically. -/
theorem compareZip_eq_compareLex {xs ys : List α} (h : xs.length = ys.length) :
    compareZip cmp xs ys = List.compareLex cmp xs ys := by
  induction xs generalizing ys with
  | nil =>
    obtain rfl := List.length_eq_zero_iff.mp h.symm
    rfl
  | cons x xs ih =>
    cases ys with
    | nil => cases h
    | cons y ys => rw [compareZip, List.compareLex_cons_cons, ih (Nat.succ.inj h)]

/-- The order of lists by length and then lexicographically. -/
def compareSized (cmp : α → α → Ordering) : List α → List α → Ordering :=
  compareLex (compareOn List.length) (List.compareLex cmp)

theorem then_compareZip (xs ys : List α) :
    (Ord.compare xs.length ys.length).then (compareZip cmp xs ys) = compareSized cmp xs ys := by
  cases h : Ord.compare xs.length ys.length with
  | eq =>
    rw [compareZip_eq_compareLex (Nat.compare_eq_eq.mp h), compareSized, compareLex, compareOn, h]
  | _ => rw [compareSized, compareLex, compareOn, h]; rfl

instance [Std.TransCmp cmp] : Std.TransCmp (compareSized cmp) :=
  inferInstanceAs (Std.TransCmp (compareLex (compareOn List.length) (List.compareLex cmp)))

theorem pairwise_sortBy [Std.TransCmp cmp] (xs : List α) :
    (sortBy cmp xs).Pairwise fun x y => (cmp x y).isLE = true := by
  refine List.pairwise_mergeSort (fun _ _ _ => Std.TransCmp.isLE_trans) (fun x y => ?_) xs
  have hswap : cmp y x = (cmp x y).swap := Std.OrientedCmp.eq_swap
  rw [hswap]
  cases cmp x y <;> rfl

theorem rel_of_rel_cons_of_eq [Std.TransCmp cmp] {a b : α} {s t : Multiset α} (hab : cmp a b = .eq)
    (h : Multiset.Rel (fun x y => cmp x y = .eq) (a ::ₘ s) (b ::ₘ t)) :
    Multiset.Rel (fun x y => cmp x y = .eq) s t :=
  rel_of_rel_cons h fun _ _ _ _ hay hxb =>
    Std.TransCmp.eq_trans hxb (Std.TransCmp.eq_trans (Std.OrientedCmp.eq_symm hab) hay)

/-- Sorted lists with equal elements in some order have them in the same order: the first elements
are equal, for neither list has anything before its own. -/
theorem forall₂_of_pairwise_of_rel [Std.TransCmp cmp] {xs ys : List α}
    (hxs : xs.Pairwise fun x y => (cmp x y).isLE = true)
    (hys : ys.Pairwise fun x y => (cmp x y).isLE = true)
    (h : Multiset.Rel (fun x y => cmp x y = .eq) (xs : Multiset α) (ys : Multiset α)) :
    List.Forall₂ (fun x y => cmp x y = .eq) xs ys := by
  induction xs generalizing ys with
  | nil =>
    obtain rfl : ys = [] := by simpa using Multiset.rel_zero_left.mp h
    exact .nil
  | cons x xs ih =>
    cases ys with
    | nil =>
      have hnil := Multiset.card_eq_card_of_rel h
      simp at hnil
    | cons y ys =>
      rw [List.pairwise_cons] at hxs hys
      have hle {z : α} {zs : List α} (hz : ∀ w ∈ zs, (cmp z w).isLE = true) {w : α}
          (hw : w ∈ z :: zs) : (cmp z w).isLE = true := by
        rcases List.mem_cons.mp hw with rfl | hw
        · exact Std.ReflCmp.isLE_rfl
        · exact hz w hw
      obtain ⟨y', hy', hxy'⟩ := Multiset.exists_mem_of_rel_of_mem h (a := x) (by simp)
      obtain ⟨x', hx', hx'y⟩ := Multiset.exists_mem_of_rel_of_mem (Multiset.rel_flip.mpr h) (a := y)
        (by simp)
      have hxy : (cmp x y).isLE = true := by
        rw [← Std.TransCmp.congr_right (show cmp x' y = .eq from hx'y)]
        exact hle hxs.1 (by simpa using hx')
      have hyx : (cmp y x).isLE = true := by
        rw [Std.TransCmp.congr_right hxy']
        exact hle hys.1 (by simpa using hy')
      have heq : cmp x y = .eq := Std.OrientedCmp.isLE_antisymm hxy hyx
      rw [← Multiset.cons_coe, ← Multiset.cons_coe] at h
      exact .cons heq (ih hxs.2 hys.2 (rel_of_rel_cons_of_eq heq h))

/-- Collections that pair up would not differ once they are sorted either, so that to look for pairs
first only saves the sorting. -/
theorem compareRun_false [Std.TransCmp cmp] (xs ys : List α) :
    compareRun cmp false xs ys = compareSized cmp (sortBy cmp xs) (sortBy cmp ys) := by
  have hperm (zs : List α) : (sortBy cmp zs : Multiset α) = zs :=
    Multiset.coe_eq_coe.mpr (List.mergeSort_perm zs _)
  have hlen (zs : List α) : (sortBy cmp zs).length = zs.length :=
    (List.mergeSort_perm zs _).length_eq
  rw [← then_compareZip, hlen, hlen, compareRun, if_neg (by simp)]
  split
  next hpairs =>
    have hrel : Multiset.Rel (fun x y => cmp x y = .eq) (sortBy cmp xs : Multiset α)
        (sortBy cmp ys : Multiset α) := by
      rw [hperm, hperm]
      exact rel_of_pairsUp hpairs
    rw [compareZip_of_forall₂
      (forall₂_of_pairwise_of_rel (pairwise_sortBy xs) (pairwise_sortBy ys) hrel)]
  next => rfl

instance [Std.TransCmp cmp] (ordered : Bool) : Std.TransCmp (compareRun cmp ordered) := by
  cases ordered with
  | true =>
    have heq : compareRun cmp true = compareSized cmp := by
      funext xs ys
      exact then_compareZip xs ys
    rw [heq]
    infer_instance
  | false =>
    have heq : compareRun cmp false =
        fun xs ys => compareSized cmp (sortBy cmp xs) (sortBy cmp ys) := by
      funext xs ys
      exact compareRun_false xs ys
    rw [heq]
    exact transCmp_comap (sortBy cmp)

instance [Std.TransCmp cmp] : Std.TransCmp (Member.compare cmp) where
  eq_swap {m m'} := by
    cases m <;> cases m'
    case single.single a b =>
      exact (Std.OrientedCmp.eq_swap : compareOption cmp a b = (compareOption cmp b a).swap)
    case sequence.sequence xs ys =>
      exact (Std.OrientedCmp.eq_swap : compareRun cmp true xs ys = (compareRun cmp true ys xs).swap)
    case collection.collection xs ys =>
      exact (Std.OrientedCmp.eq_swap :
        compareRun cmp false xs ys = (compareRun cmp false ys xs).swap)
    all_goals rfl
  isLE_trans {m m' m''} h h' := by
    cases m <;> cases m' <;> cases m''
    case single.single.single a b c =>
      exact (Std.TransCmp.isLE_trans h h' : (compareOption cmp a c).isLE = true)
    case sequence.sequence.sequence xs ys zs =>
      exact (Std.TransCmp.isLE_trans h h' : (compareRun cmp true xs zs).isLE = true)
    case collection.collection.collection xs ys zs =>
      exact (Std.TransCmp.isLE_trans h h' : (compareRun cmp false xs zs).isLE = true)
    all_goals first | rfl | exact (Bool.false_ne_true h).elim | exact (Bool.false_ne_true h').elim

instance [Std.TransCmp cmp] : Std.TransCmp (Node.compare cmp) := by
  have hkind : Std.TransCmp (compareOn fun x : Node α => x.kind) := inferInstance
  have hvalue : Std.TransCmp fun x y : Node α => compareOption Value.compare x.value y.value :=
    transCmp_comap Node.value
  have hmembers : Std.TransCmp fun x y : Node α =>
      compareSized (Member.compare cmp) x.members y.members := transCmp_comap Node.members
  have heq : Node.compare cmp = compareLex (compareOn fun x => x.kind)
      (compareLex (fun x y => compareOption Value.compare x.value y.value)
        fun x y => compareSized (Member.compare cmp) x.members y.members) := by
    funext x y
    rw [Node.compare, then_compareZip]
    rfl
  rw [heq]
  infer_instance

theorem Member.compare_self (h : ∀ x, cmp x x = .eq) (m : Member α) : m.compare cmp m = .eq := by
  cases m with
  | single a =>
    cases a with
    | none => rfl
    | some a => exact h a
  | sequence xs => exact compareRun_self h true
  | collection xs => exact compareRun_self h false

theorem Node.compare_self (h : ∀ c, cmp c c = .eq) (x : Node α) : x.compare cmp x = .eq := by
  simp only [compare, Ordering.then_eq_eq]
  exact ⟨Nat.compare_eq_eq.mpr rfl, Std.ReflCmp.compare_self, Nat.compare_eq_eq.mpr rfl,
    compareZip_self (Member.compare_self h)⟩

end Laws

/-! ## Subtrees, runs and keys -/

namespace Forest

variable {s : Schema}

theorem map_val_within (f : Forest s) {bound : Nat} {id : NodeId} (h : id ≤ bound) :
    (f.within bound id h).map Fin.val = f.get id :=
  Node.map_val_below ..

/-- Subtrees are compared by the nodes at their roots.  That a node is not compared with itself
makes no difference. -/
theorem compare_eq (f : Forest s) (a b : NodeId) :
    f.compare a b = (f.get a).compare f.compare (f.get b) := by
  rw [compare]
  split
  next hab =>
    subst hab
    exact (Node.compare_self f.compare_self _).symm
  next =>
    dsimp only
    rw [← Node.compare_map, map_val_within, map_val_within]

theorem compare_eq_within (f : Forest s) {n : Nat} {a b : NodeId} (ha : a ≤ n) (hb : b ≤ n) :
    f.compare a b =
      (f.within n a ha).compare (fun c d => f.compare c.val d.val) (f.within n b hb) := by
  rw [compare_eq, ← f.map_val_within ha, ← f.map_val_within hb, Node.compare_map]

/-- Below a bound all children of a node are below a smaller one. -/
theorem transCmp_compare_below (f : Forest s) (n : Nat) :
    Std.TransCmp fun a b : Fin n => f.compare a.val b.val := by
  induction n with
  | zero => exact { eq_swap := fun {a} => a.elim0, isLE_trans := fun {a} => a.elim0 }
  | succ n ih =>
    have hle (a : Fin (n + 1)) : a.val ≤ n := Nat.le_of_lt_succ a.isLt
    have heq : (fun a b : Fin (n + 1) => f.compare a.val b.val) = fun a b =>
        (f.within n a.val (hle a)).compare (fun c d => f.compare c.val d.val)
          (f.within n b.val (hle b)) := by
      funext a b
      exact f.compare_eq_within (hle a) (hle b)
    rw [heq]
    exact transCmp_comap fun a : Fin (n + 1) => f.within n a.val (hle a)

instance (f : Forest s) : Std.TransCmp f.compare where
  eq_swap {a b} :=
    (f.transCmp_compare_below (max a b + 1)).eq_swap (a := ⟨a, by omega⟩) (b := ⟨b, by omega⟩)
  isLE_trans {a b c} :=
    (f.transCmp_compare_below (max a (max b c) + 1)).isLE_trans (a := ⟨a, by omega⟩)
      (b := ⟨b, by omega⟩) (c := ⟨c, by omega⟩)

instance (f : Forest s) (ordered : Bool) : Std.TransCmp (f.compareRuns ordered) :=
  inferInstanceAs (Std.TransCmp (compareRun f.compare ordered))

end Forest

instance {s : Schema} (f : Forest s) : Std.TransCmp (Key.compare f) where
  eq_swap {key key'} := by
    rcases key with x | ⟨_ | _, xs⟩ <;> rcases key' with y | ⟨_ | _, ys⟩
    case node.node => exact (Std.OrientedCmp.eq_swap : f.compare x y = (f.compare y x).swap)
    case run.false.run.false =>
      exact (Std.OrientedCmp.eq_swap : f.compareRuns false xs ys = (f.compareRuns false ys xs).swap)
    case run.true.run.true =>
      exact (Std.OrientedCmp.eq_swap : f.compareRuns true xs ys = (f.compareRuns true ys xs).swap)
    all_goals rfl
  isLE_trans {key key' key''} h h' := by
    rcases key with x | ⟨_ | _, xs⟩ <;> rcases key' with y | ⟨_ | _, ys⟩ <;>
      rcases key'' with z | ⟨_ | _, zs⟩
    case node.node.node => exact (Std.TransCmp.isLE_trans h h' : (f.compare x z).isLE = true)
    case run.false.run.false.run.false =>
      exact (Std.TransCmp.isLE_trans h h' : (f.compareRuns false xs zs).isLE = true)
    case run.true.run.true.run.true =>
      exact (Std.TransCmp.isLE_trans h h' : (f.compareRuns true xs zs).isLE = true)
    all_goals first | rfl | exact (Bool.false_ne_true h).elim | exact (Bool.false_ne_true h').elim

/-- A comparison puts its arguments into a total preorder: all are equal to themselves, two of them
compare one way around as they do the other, and neither the order nor the strict order has gaps. -/
structure TotalPreorder {α : Type} (cmp : α → α → Ordering) : Prop where
  self : ∀ a, cmp a a = .eq
  swap : ∀ a b, cmp b a = (cmp a b).swap
  trans : ∀ a b c, cmp a b ≠ .gt → cmp b c ≠ .gt → cmp a c ≠ .gt
  strict : ∀ a b c, cmp a b ≠ .gt → cmp b c ≠ .gt → cmp a b = .lt ∨ cmp b c = .lt → cmp a c = .lt

theorem TotalPreorder.of_transCmp {α : Type} {cmp : α → α → Ordering} [Std.TransCmp cmp] :
    TotalPreorder cmp where
  self _ := Std.ReflCmp.compare_self
  swap _ _ := Std.OrientedCmp.eq_swap
  trans a b c hab hbc := Ordering.ne_gt_iff_isLE.mpr <|
    Std.TransCmp.isLE_trans (Ordering.ne_gt_iff_isLE.mp hab) (Ordering.ne_gt_iff_isLE.mp hbc)
  strict a b c hab hbc h := by
    rcases h with hlt | hlt
    · exact Std.TransCmp.lt_of_lt_of_isLE hlt (Ordering.ne_gt_iff_isLE.mp hbc)
    · exact Std.TransCmp.lt_of_isLE_of_lt (Ordering.ne_gt_iff_isLE.mp hab) hlt

/-- Subtrees, runs of either kind and keys are in total preorders. -/
theorem Forest.totalPreorder_compare {s : Schema} (f : Forest s) :
    TotalPreorder f.compare ∧ (∀ ordered, TotalPreorder (f.compareRuns ordered)) ∧
      TotalPreorder (Key.compare f) :=
  ⟨.of_transCmp, fun _ => .of_transCmp, .of_transCmp⟩

end Espalier
