import Espalier.Proofs.TotalOrder
import Mathlib.Data.List.FinRange
import Mathlib.Data.List.NodupEquivFin
import Mathlib.Data.Multiset.MapFold
import Mathlib.Data.Option.Basic

/-!
# Comparing equal is being the same tree

Two subtrees compare equal if and only if they have the same kind and value and their members hold
equal children: none or one in a single member, in the same order in a sequence, in some order in a
collection.  To pair the children of a collection off one by one without ever going back is enough
only because equality is an equivalence.
-/

namespace Espalier

/-! ## Members and nodes with related children -/

section Alike

variable {α β γ : Type}

/-- The children of two members are related: in a sequence one by one, in a collection in some
order. -/
inductive Member.Alike (R : α → β → Prop) : Member α → Member β → Prop where
  | single {a : Option α} {b : Option β} (h : Option.Rel R a b) : Alike R (.single a) (.single b)
  | sequence {xs : List α} {ys : List β} (h : List.Forall₂ R xs ys) :
      Alike R (.sequence xs) (.sequence ys)
  | collection {xs : List α} {ys : List β}
      (h : Multiset.Rel R (xs : Multiset α) (ys : Multiset β)) :
      Alike R (.collection xs) (.collection ys)

/-- Two nodes agree but for their children, which are related. -/
structure Node.Alike (R : α → β → Prop) (x : Node α) (y : Node β) : Prop where
  kind_eq : x.kind = y.kind
  value_eq : x.value = y.value
  members : List.Forall₂ (Member.Alike R) x.members y.members

variable {R : α → β → Prop}

theorem rel_comp {S : β → γ → Prop} {s : Multiset α} {t : Multiset β} {u : Multiset γ}
    (h : Multiset.Rel R s t) (h' : Multiset.Rel S t u) : Multiset.Rel (Relation.Comp R S) s u := by
  induction h generalizing u with
  | zero =>
    rw [Multiset.rel_zero_left.mp h']
    exact .zero
  | cons hab _ ih =>
    obtain ⟨c, u', hbc, hu', rfl⟩ := Multiset.rel_cons_left.mp h'
    exact .cons ⟨_, hab, hbc⟩ (ih hu')

theorem forall₂_comp {S : β → γ → Prop} {xs : List α} {ys : List β} {zs : List γ}
    (h : List.Forall₂ R xs ys) (h' : List.Forall₂ S ys zs) :
    List.Forall₂ (Relation.Comp R S) xs zs := by
  induction h generalizing zs with
  | nil =>
    cases h'
    exact .nil
  | cons hab _ ih =>
    cases h' with
    | cons hbc h' => exact .cons ⟨_, hab, hbc⟩ (ih h')

theorem forall₂_mono {S : α → β → Prop} {xs : List α} {ys : List β} (h : List.Forall₂ R xs ys)
    (hRS : ∀ x ∈ xs, ∀ y ∈ ys, R x y → S x y) : List.Forall₂ S xs ys := by
  induction h with
  | nil => exact .nil
  | cons hxy _ ih =>
    simp only [List.mem_cons, forall_eq_or_imp] at hRS
    exact .cons (hRS.1.1 hxy) (ih fun x hx y hy => (hRS.2 x hx).2 y hy)

theorem exists_mem_of_forall₂ {xs : List α} {ys : List β} (h : List.Forall₂ R xs ys) {x : α}
    (hx : x ∈ xs) : ∃ y ∈ ys, R x y :=
  Multiset.exists_mem_of_rel_of_mem (rel_of_forall₂ h) hx

namespace Member.Alike

variable {m : Member α} {m' : Member β} {m'' : Member γ}

theorem mono {S : α → β → Prop} (h : m.Alike R m')
    (hRS : ∀ x ∈ m.children, ∀ y ∈ m'.children, R x y → S x y) : m.Alike S m' := by
  cases h with
  | single h =>
    cases h with
    | none => exact .single .none
    | some hab => exact .single (.some (hRS _ (by simp [children]) _ (by simp [children]) hab))
  | sequence h => exact .sequence (forall₂_mono h hRS)
  | collection h => exact .collection (h.mono hRS)

theorem flip (h : m.Alike R m') : m'.Alike (fun y x => R x y) m := by
  cases h with
  | single h =>
    cases h with
    | none => exact .single .none
    | some hab => exact .single (.some hab)
  | sequence h => exact .sequence h.flip
  | collection h => exact .collection (Multiset.rel_flip.mpr h)

theorem comp {S : β → γ → Prop} (h : m.Alike R m') (h' : m'.Alike S m'') :
    m.Alike (Relation.Comp R S) m'' := by
  cases h with
  | single h =>
    cases h' with
    | single h' =>
      cases h with
      | none =>
        cases h'
        exact .single .none
      | some hab =>
        cases h' with
        | some hbc => exact .single (.some ⟨_, hab, hbc⟩)
  | sequence h =>
    cases h' with
    | sequence h' => exact .sequence (forall₂_comp h h')
  | collection h =>
    cases h' with
    | collection h' => exact .collection (rel_comp h h')

theorem refl {R : α → α → Prop} {m : Member α} (hR : ∀ x ∈ m.children, R x x) : m.Alike R m := by
  cases m with
  | single a =>
    cases a with
    | none => exact .single .none
    | some a => exact .single (.some (hR a (by simp [children])))
  | sequence xs => exact .sequence (List.forall₂_same.mpr hR)
  | collection xs => exact .collection (Multiset.rel_refl_of_refl_on hR)

/-- Every child of a member has a partner. -/
theorem exists_mem (h : m.Alike R m') {x : α} (hx : x ∈ m.children) :
    ∃ y ∈ m'.children, R x y := by
  cases h with
  | single h =>
    cases h with
    | none => cases hx
    | some hab =>
      obtain rfl : x = _ := by simpa [children] using hx
      exact ⟨_, by simp [children], hab⟩
  | sequence h => exact exists_mem_of_forall₂ h hx
  | collection h => exact Multiset.exists_mem_of_rel_of_mem h hx

end Member.Alike

namespace Node.Alike

variable {x : Node α} {y : Node β} {z : Node γ}

theorem mono {S : α → β → Prop} (h : x.Alike R y)
    (hRS : ∀ c ∈ x.children, ∀ d ∈ y.children, R c d → S c d) : x.Alike S y where
  kind_eq := h.kind_eq
  value_eq := h.value_eq
  members := forall₂_mono h.members fun _ hm _ hm' hmm' => hmm'.mono fun c hc d hd =>
    hRS c (List.mem_flatMap_of_mem hm hc) d (List.mem_flatMap_of_mem hm' hd)

theorem flip (h : x.Alike R y) : y.Alike (fun d c => R c d) x where
  kind_eq := h.kind_eq.symm
  value_eq := h.value_eq.symm
  members := (List.Forall₂.flip h.members).imp fun _ _ => Member.Alike.flip

theorem comp {S : β → γ → Prop} (h : x.Alike R y) (h' : y.Alike S z) :
    x.Alike (Relation.Comp R S) z where
  kind_eq := h.kind_eq.trans h'.kind_eq
  value_eq := h.value_eq.trans h'.value_eq
  members := by
    refine (forall₂_comp h.members h'.members).imp ?_
    rintro _ _ ⟨_, hm, hm'⟩
    exact hm.comp hm'

/-- Every child of a node has a partner. -/
theorem exists_mem (h : x.Alike R y) {c : α} (hc : c ∈ x.children) : ∃ d ∈ y.children, R c d := by
  obtain ⟨m, hm, hc⟩ := List.mem_flatMap.mp hc
  obtain ⟨m', hm', hmm'⟩ := exists_mem_of_forall₂ h.members hm
  obtain ⟨d, hd, hcd⟩ := hmm'.exists_mem hc
  exact ⟨d, List.mem_flatMap_of_mem hm' hd, hcd⟩

end Node.Alike

end Alike

/-! ## Bijections -/

section Bijection

variable {α β : Type} {R : α → β → Prop} {xs : List α} {ys : List β}

theorem exists_perm_of_rel (h : Multiset.Rel R (xs : Multiset α) (ys : Multiset β)) :
    ∃ zs, zs.Perm ys ∧ List.Forall₂ R xs zs := by
  induction xs generalizing ys with
  | nil =>
    obtain rfl : ys = [] := by simpa using Multiset.rel_zero_left.mp h
    exact ⟨[], .refl _, .nil⟩
  | cons x xs ih =>
    rw [← Multiset.cons_coe] at h
    obtain ⟨y, t, hxy, ht, hys⟩ := Multiset.rel_cons_left.mp h
    obtain ⟨rest, rfl⟩ := Quot.exists_rep t
    obtain ⟨zs, hperm, hzs⟩ := ih ht
    exact ⟨y :: zs, (hperm.cons y).trans (Multiset.coe_eq_coe.mp hys.symm), .cons hxy hzs⟩

/-- Lists have related elements in some order if and only if a bijection of their places relates
them. -/
theorem rel_iff_exists_equiv : Multiset.Rel R (xs : Multiset α) (ys : Multiset β) ↔
    ∃ σ : Fin xs.length ≃ Fin ys.length, ∀ i, R (xs.get i) (ys.get (σ i)) := by
  have hplaces : Multiset.Rel R (xs : Multiset α) (ys : Multiset β) ↔
      Multiset.Rel (fun i j => R (xs.get i) (ys.get j)) (List.finRange xs.length : Multiset _)
        (List.finRange ys.length : Multiset _) := by
    conv_lhs => rw [← List.map_get_finRange xs, ← List.map_get_finRange ys]
    rw [← Multiset.map_coe, ← Multiset.map_coe, Multiset.rel_map]
  rw [hplaces]
  constructor
  · intro h
    obtain ⟨js, hperm, hjs⟩ := exists_perm_of_rel h
    have hlen : xs.length = js.length := by simpa using hjs.length_eq
    have hnodup : js.Nodup := hperm.nodup_iff.mpr (List.nodup_finRange _)
    have hall (j) : j ∈ js := hperm.mem_iff.mpr (List.mem_finRange j)
    refine ⟨(finCongr hlen).trans (hnodup.getEquivOfForallMemList js hall), fun i => ?_⟩
    have hi := List.Forall₂.get hjs (i := i.val) (by simp) (by simp [← hlen])
    simpa using hi
  · rintro ⟨σ, hσ⟩
    have hperm : ((List.finRange xs.length).map σ).Perm (List.finRange ys.length) := by
      refine (List.perm_ext_iff_of_nodup ((List.nodup_finRange _).map σ.injective)
        (List.nodup_finRange _)).mpr fun j => ?_
      simpa using σ.surjective j
    rw [← Multiset.coe_eq_coe.mpr hperm]
    apply rel_of_forall₂
    rw [List.forall₂_map_right_iff, List.forall₂_same]
    intro i _
    exact hσ i

end Bijection

/-! ## When comparisons are equal -/

theorem Value.eq_of_compare {a b : Value} (h : a.compare b = .eq) : a = b := by
  cases a <;> cases b <;> simp_all [compare]

theorem Category.eq_of_rank {c d : Category} (h : c.rank = d.rank) : c = d := by
  cases c <;> cases d <;> first | rfl | cases h

section Compare

variable {α : Type} {cmp : α → α → Ordering}

theorem rel_of_compareOption {a b : Option α} (h : compareOption cmp a b = .eq) :
    Option.Rel (fun x y => cmp x y = .eq) a b := by
  cases a <;> cases b
  · exact .none
  · cases h
  · cases h
  · exact .some h

theorem exists_removeFirst? {test : α → Bool} {ys : List α} (h : ∃ y ∈ ys, test y = true) :
    ∃ rest, removeFirst? test ys = some rest := by
  have hsome : (ys.findIdx? test).isSome := by
    rw [List.findIdx?_isSome]
    exact List.any_eq_true.mpr h
  obtain ⟨i, hi⟩ := Option.isSome_iff_exists.mp hsome
  exact ⟨swapRemove ys i, by rw [removeFirst?, hi, Option.map_some]⟩

/-- An element that takes the first partner still free takes none away: the one that is left over in
its stead serves whoever it would have served. -/
theorem pairsUp_of_rel [Std.TransCmp cmp] {xs ys : List α}
    (h : Multiset.Rel (fun x y => cmp x y = .eq) (xs : Multiset α) (ys : Multiset α)) :
    pairsUp cmp xs ys = true := by
  induction xs generalizing ys with
  | nil =>
    have hys : (ys : Multiset α) = 0 := Multiset.rel_zero_left.mp h
    simpa [pairsUp] using hys
  | cons x xs ih =>
    obtain ⟨y', hy', hxy'⟩ := Multiset.exists_mem_of_rel_of_mem h (a := x) (by simp)
    obtain ⟨rest, hrest⟩ : ∃ rest, removeFirst? (fun y => cmp x y == .eq) ys = some rest :=
      exists_removeFirst? ⟨y', by simpa using hy', by simp [hxy']⟩
    obtain ⟨y, hxy, hperm⟩ := removeFirst?_eq_some hrest
    have hxy : cmp x y = .eq := by simpa using hxy
    rw [pairsUp, hrest]
    rw [← Multiset.cons_coe, Multiset.coe_eq_coe.mpr hperm, ← Multiset.cons_coe] at h
    exact ih (rel_of_rel_cons_of_eq hxy h)

theorem Member.alike_of_compare {m m' : Member α} (h : m.compare cmp m' = .eq) :
    m.Alike (fun x y => cmp x y = .eq) m' := by
  cases m <;> cases m'
  case single.single => exact .single (rel_of_compareOption h)
  case sequence.sequence => exact .sequence (forall₂_of_compareRun h)
  case collection.collection => exact .collection (rel_of_compareRun h)
  all_goals exact Category.noConfusion (Category.eq_of_rank (Nat.compare_eq_eq.mp h))

theorem Member.compare_of_alike [Std.TransCmp cmp] {m m' : Member α}
    (h : m.Alike (fun x y => cmp x y = .eq) m') : m.compare cmp m' = .eq := by
  cases h with
  | single h =>
    cases h with
    | none => rfl
    | some h => exact h
  | sequence h =>
    rw [compare, compareRun, h.length_eq, Nat.compare_eq_eq.mpr rfl]
    exact compareZip_of_forall₂ h
  | @collection xs ys h =>
    have hlen : xs.length = ys.length := Multiset.card_eq_card_of_rel h
    rw [compare, compareRun, hlen, Nat.compare_eq_eq.mpr rfl, if_neg (by simp),
      if_pos (pairsUp_of_rel h)]
    rfl

theorem Node.alike_of_compare {x y : Node α} (h : x.compare cmp y = .eq) :
    x.Alike (fun c d => cmp c d = .eq) y := by
  simp only [compare, Ordering.then_eq_eq] at h
  obtain ⟨hkind, hvalue, hlen, hmembers⟩ := h
  refine ⟨Nat.compare_eq_eq.mp hkind, ?_, ?_⟩
  · have := rel_of_compareOption hvalue
    revert this
    generalize x.value = v
    generalize y.value = w
    intro hvw
    cases hvw with
    | none => rfl
    | some h => rw [Value.eq_of_compare h]
  · exact (forall₂_of_compareZip (Nat.compare_eq_eq.mp hlen) hmembers).imp fun _ _ =>
      Member.alike_of_compare

theorem Node.compare_of_alike [Std.TransCmp cmp] {x y : Node α}
    (h : x.Alike (fun c d => cmp c d = .eq) y) : x.compare cmp y = .eq := by
  simp only [compare, Ordering.then_eq_eq]
  refine ⟨Nat.compare_eq_eq.mpr h.kind_eq, ?_, Nat.compare_eq_eq.mpr h.members.length_eq, ?_⟩
  · rw [h.value_eq]
    exact Std.ReflCmp.compare_self
  · exact compareZip_of_forall₂ (h.members.imp fun _ _ => Member.compare_of_alike)

end Compare

/-! ## Equal subtrees -/

namespace Forest

variable {s : Schema} {f : Forest s} {a b c : NodeId}

/-- The children of equal subtrees are equal. -/
theorem alike_of_compare (h : f.compare a b = .eq) :
    (f.get a).Alike (fun c d => f.compare c d = .eq) (f.get b) := by
  rw [compare_eq] at h
  exact Node.alike_of_compare h

theorem compare_of_alike (h : (f.get a).Alike (fun c d => f.compare c d = .eq) (f.get b)) :
    f.compare a b = .eq := by
  rw [compare_eq]
  exact Node.compare_of_alike h

theorem compare_symm (h : f.compare a b = .eq) : f.compare b a = .eq :=
  Std.OrientedCmp.eq_symm h

theorem compare_trans (h : f.compare a b = .eq) (h' : f.compare b c = .eq) :
    f.compare a c = .eq :=
  Std.TransCmp.eq_trans h h'

/-- The subtrees at two nodes are the same tree up to the order within collections. -/
inductive SameTree (f : Forest s) : NodeId → NodeId → Prop where
  | node {a b : NodeId} (kind_eq : (f.get a).kind = (f.get b).kind)
      (value_eq : (f.get a).value = (f.get b).value)
      (members : List.Forall₂ (Member.Alike (SameTree f)) (f.get a).members (f.get b).members) :
      SameTree f a b

theorem sameTree_of_compare (h : f.compare a b = .eq) : f.SameTree a b := by
  induction a using Nat.strongRecOn generalizing b with
  | ind a ih =>
    have halike : (f.get a).Alike f.SameTree (f.get b) :=
      (alike_of_compare h).mono fun c hc d _ hcd => ih c (f.child_lt_of_mem hc) hcd
    exact .node halike.kind_eq halike.value_eq halike.members

theorem SameTree.compare_eq (h : f.SameTree a b) : f.compare a b = .eq := by
  induction a using Nat.strongRecOn generalizing b with
  | ind a ih =>
    cases h with
    | node hkind hvalue hmembers =>
      have halike : (f.get a).Alike f.SameTree (f.get b) := ⟨hkind, hvalue, hmembers⟩
      apply compare_of_alike
      exact halike.mono fun c hc d _ hcd => ih c (f.child_lt_of_mem hc) hcd

theorem compare_eq_eq_iff : f.compare a b = .eq ↔ f.SameTree a b :=
  ⟨sameTree_of_compare, SameTree.compare_eq⟩

theorem equivalence_sameTree (f : Forest s) : Equivalence f.SameTree where
  refl a := sameTree_of_compare (f.compare_self a)
  symm h := sameTree_of_compare (compare_symm h.compare_eq)
  trans h h' := sameTree_of_compare (compare_trans h.compare_eq h'.compare_eq)

/-- Elements pair up if there is any bijection between them at all. -/
theorem pairsUp_iff_exists_equiv {xs ys : List NodeId} : pairsUp f.compare xs ys = true ↔
    ∃ σ : Fin xs.length ≃ Fin ys.length, ∀ i, f.compare (xs.get i) (ys.get (σ i)) = .eq := by
  rw [← rel_iff_exists_equiv (R := fun x y => f.compare x y = .eq)]
  exact ⟨rel_of_pairsUp, pairsUp_of_rel⟩

/-- Equal subtrees compare in the same way with everything. -/
theorem compare_eq_eq_iff_forall : f.compare a b = .eq ↔
    ∀ c, f.compare a c = f.compare b c ∧ f.compare c a = f.compare c b := by
  constructor
  · intro h c
    exact ⟨Std.TransCmp.congr_left h, Std.TransCmp.congr_right h⟩
  · intro h
    rw [(h b).1, compare_self]

/-- To compare equal is to be the same tree.  The elements of two lists are paired off if and only
if some bijection takes each to the same tree, and two subtrees are the same tree if and only if
nothing compares differently with them. -/
theorem compare_eq_eq_iff_sameTree (f : Forest s) :
    Equivalence f.SameTree ∧ (∀ a b, f.compare a b = .eq ↔ f.SameTree a b) ∧
      (∀ xs ys, pairsUp f.compare xs ys = true ↔
        ∃ σ : Fin xs.length ≃ Fin ys.length, ∀ i, f.SameTree (xs.get i) (ys.get (σ i))) ∧
      ∀ a b, f.SameTree a b ↔ ∀ c,
        f.compare a c = f.compare b c ∧ f.compare c a = f.compare c b := by
  refine ⟨f.equivalence_sameTree, fun a b => compare_eq_eq_iff, fun xs ys => ?_, fun a b => ?_⟩
  · rw [pairsUp_iff_exists_equiv]
    simp only [compare_eq_eq_iff]
  · rw [← compare_eq_eq_iff, compare_eq_eq_iff_forall]

/-- Two nodes before `n` with equal subtrees. -/
structure EqualBelow (f : Forest s) (n : Nat) (a b : NodeId) : Prop where
  left_lt : a < n
  right_lt : b < n
  compare_eq : f.compare a b = .eq

namespace EqualBelow

variable {n : Nat}

theorem refl (ha : a < n) : f.EqualBelow n a a := ⟨ha, ha, f.compare_self a⟩

theorem symm (h : f.EqualBelow n a b) : f.EqualBelow n b a :=
  ⟨h.right_lt, h.left_lt, compare_symm h.compare_eq⟩

theorem trans (h : f.EqualBelow n a b) (h' : f.EqualBelow n b c) : f.EqualBelow n a c :=
  ⟨h.left_lt, h'.right_lt, compare_trans h.compare_eq h'.compare_eq⟩

theorem get (h : f.EqualBelow n a b) : (f.get a).Alike (f.EqualBelow n) (f.get b) :=
  (alike_of_compare h.compare_eq).mono fun _ hc _ hd hcd =>
    ⟨Nat.lt_trans (f.child_lt_of_mem hc) h.left_lt, Nat.lt_trans (f.child_lt_of_mem hd) h.right_lt,
      hcd⟩

theorem of_alike (ha : a < n) (hb : b < n) (h : (f.get a).Alike (f.EqualBelow n) (f.get b)) :
    f.EqualBelow n a b :=
  ⟨ha, hb, compare_of_alike (h.mono fun _ _ _ _ hcd => hcd.compare_eq)⟩

end EqualBelow

end Forest

/-! ## Equal keys -/

namespace Key

/-- A key as a member: a node for one child, a run for a container. -/
def member : Key → Member NodeId
  | .node x => .single (some x)
  | .run true xs => .sequence xs
  | .run false xs => .collection xs

/-- The nodes of two keys are related, in order unless they are runs without one. -/
def Alike (R : NodeId → NodeId → Prop) (key key' : Key) : Prop := key.member.Alike R key'.member

theorem Alike.exists_node {R : NodeId → NodeId → Prop} {x : NodeId} {key : Key}
    (h : Alike R (.node x) key) : ∃ y, key = .node y ∧ R x y := by
  rcases key with y | ⟨_ | _, ys⟩ <;> cases h
  next h =>
    cases h with
    | some h => exact ⟨y, rfl, h⟩

theorem Alike.exists_run {R : NodeId → NodeId → Prop} {ordered : Bool} {xs : List NodeId}
    {key : Key} (h : Alike R (.run ordered xs) key) :
    ∃ ys, key = .run ordered ys ∧ Multiset.Rel R (xs : Multiset NodeId) (ys : Multiset NodeId) := by
  rcases key with y | ⟨_ | _, ys⟩ <;> cases ordered <;> cases h
  next h => exact ⟨ys, rfl, h⟩
  next h => exact ⟨ys, rfl, rel_of_forall₂ h⟩

variable {s : Schema} {f : Forest s} {key key' key'' : Key}

theorem compare_eq_iff_alike :
    key.compare f key' = .eq ↔ key.Alike (fun x y => f.compare x y = .eq) key' := by
  have hmember : key.compare f key' = .eq ↔ key.member.compare f.compare key'.member = .eq := by
    rcases key with x | ⟨_ | _, xs⟩ <;> rcases key' with y | ⟨_ | _, ys⟩ <;>
      first | exact Iff.rfl | exact iff_of_false nofun nofun
  rw [hmember]
  exact ⟨Member.alike_of_compare, Member.compare_of_alike⟩

theorem compare_trans (h : key.compare f key' = .eq) (h' : key'.compare f key'' = .eq) :
    key.compare f key'' = .eq :=
  Std.TransCmp.eq_trans h h'

end Key

end Espalier
