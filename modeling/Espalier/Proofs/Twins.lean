import Espalier.Proofs.Congruence
import Espalier.Proofs.Growth
import Espalier.Tree.Basic

/-!
# The same tree in two forests

One tree may stand in two forests: at other ids, with subtrees that are shared in one of them only,
and among other nodes.  Two nodes are twins if they carry the same tree and if every two of their
nodes that correspond have been there since the same mark, so that a run which tells nodes by their
age sees no difference either.
-/

namespace Espalier

/-! ## Nodes with related children in the same places -/

section Parallel

variable {α β γ : Type} {T U : α → β → Prop}

namespace Member

variable {m : Member α} {m' : Member β}

theorem Parallel.forall₂_children (h : m.Parallel T m') :
    List.Forall₂ T m.children m'.children := by
  cases h with
  | single h =>
    cases h with
    | none => exact .nil
    | some h => exact .cons h .nil
  | sequence h => exact h
  | collection h => exact h

theorem Parallel.category_eq (h : m.Parallel T m') : m.category = m'.category := by
  cases h <;> rfl

theorem Parallel.mono (h : m.Parallel T m')
    (hTU : ∀ a ∈ m.children, ∀ b ∈ m'.children, T a b → U a b) : m.Parallel U m' := by
  cases h with
  | single h =>
    cases h with
    | none => exact .single .none
    | some h => exact .single (.some (hTU _ (by simp [children]) _ (by simp [children]) h))
  | sequence h => exact .sequence (forall₂_mono h hTU)
  | collection h => exact .collection (forall₂_mono h hTU)

theorem Parallel.alike (h : m.Parallel T m') : m.Alike T m' := by
  cases h with
  | single h => exact .single h
  | sequence h => exact .sequence h
  | collection h => exact .collection (rel_of_forall₂ h)

theorem parallel_map_left {g : γ → α} {m : Member γ} :
    (m.map g).Parallel T m' ↔ m.Parallel (fun c b => T (g c) b) m' := by
  constructor
  · intro h
    cases m <;> cases h
    case single child child' h =>
      cases child <;> cases h
      · exact .single .none
      · exact .single (.some ‹_›)
    case sequence h => exact .sequence (List.forall₂_map_left_iff.mp h)
    case collection h => exact .collection (List.forall₂_map_left_iff.mp h)
  · intro h
    cases h with
    | single h =>
      cases h with
      | none => exact .single .none
      | some h => exact .single (.some h)
    | sequence h => exact .sequence (List.forall₂_map_left_iff.mpr h)
    | collection h => exact .collection (List.forall₂_map_left_iff.mpr h)

theorem Parallel.flip (h : m.Parallel T m') : m'.Parallel (fun b a => T a b) m := by
  cases h with
  | single h =>
    cases h with
    | none => exact .single .none
    | some h => exact .single (.some h)
  | sequence h => exact .sequence h.flip
  | collection h => exact .collection h.flip

theorem parallel_map_right {g : γ → β} {m' : Member γ} :
    m.Parallel T (m'.map g) ↔ m.Parallel (fun a c => T a (g c)) m' :=
  ⟨fun h => (parallel_map_left.mp h.flip).flip, fun h => (parallel_map_left.mpr h.flip).flip⟩

theorem map_category_eq_of_forall₂ {ms : List (Member α)} {ms' : List (Member β)}
    (h : List.Forall₂ (Member.Parallel T) ms ms') : ms.map category = ms'.map category := by
  induction h with
  | nil => rfl
  | cons hm _ ih => rw [List.map_cons, List.map_cons, hm.category_eq, ih]

end Member

/-- Two nodes agree but for their children, and those are related one by one. -/
structure Node.Parallel (T : α → β → Prop) (n : Node α) (n' : Node β) : Prop where
  kind_eq : n.kind = n'.kind
  value_eq : n.value = n'.value
  members : List.Forall₂ (Member.Parallel T) n.members n'.members

namespace Node

variable {n : Node α} {n' : Node β}

theorem Parallel.mono (h : n.Parallel T n')
    (hTU : ∀ a ∈ n.children, ∀ b ∈ n'.children, T a b → U a b) : n.Parallel U n' where
  kind_eq := h.kind_eq
  value_eq := h.value_eq
  members := forall₂_mono h.members fun _ hm _ hm' hmm' => hmm'.mono fun a ha b hb =>
    hTU a (List.mem_flatMap_of_mem hm ha) b (List.mem_flatMap_of_mem hm' hb)

theorem Parallel.alike (h : n.Parallel T n') : n.Alike T n' :=
  ⟨h.kind_eq, h.value_eq, h.members.imp fun _ _ => Member.Parallel.alike⟩

theorem Parallel.forall₂_children (h : n.Parallel T n') : List.Forall₂ T n.children n'.children :=
  List.rel_flatMap h.members fun _ _ => Member.Parallel.forall₂_children

theorem parallel_map_left {g : γ → α} {n : Node γ} :
    (n.map g).Parallel T n' ↔ n.Parallel (fun c b => T (g c) b) n' := by
  have hmembers : List.Forall₂ (Member.Parallel T) (n.members.map (Member.map g)) n'.members ↔
      List.Forall₂ (Member.Parallel fun c b => T (g c) b) n.members n'.members := by
    simp only [List.forall₂_map_left_iff, Member.parallel_map_left]
  exact ⟨fun h => ⟨h.kind_eq, h.value_eq, hmembers.mp h.members⟩,
    fun h => ⟨h.kind_eq, h.value_eq, hmembers.mpr h.members⟩⟩

theorem parallel_map_right {g : γ → β} {n' : Node γ} :
    n.Parallel T (n'.map g) ↔ n.Parallel (fun a c => T a (g c)) n' := by
  have hmembers : List.Forall₂ (Member.Parallel T) n.members (n'.members.map (Member.map g)) ↔
      List.Forall₂ (Member.Parallel fun a c => T a (g c)) n.members n'.members := by
    simp only [List.forall₂_map_right_iff, Member.parallel_map_right]
  exact ⟨fun h => ⟨h.kind_eq, h.value_eq, hmembers.mp h.members⟩,
    fun h => ⟨h.kind_eq, h.value_eq, hmembers.mpr h.members⟩⟩

end Node

end Parallel

variable {s : Schema}

/-- Two forests side by side.  A mark is a pair of sizes that they had at the same time. -/
structure ForestPair (s : Schema) where
  left : Forest s
  right : Forest s
  marks : List (Nat × Nat)

theorem Forest.get_eq_map_node (f : Forest s) (a : NodeId) : f.get a = (f.node a).map Fin.val :=
  (Node.map_val_below a (f.get a) fun _ hc => f.child_lt_of_mem hc).symm

namespace ForestPair

variable {P P' P'' : ForestPair s} {a b x x' y y' : NodeId}

/-- The trees at `a` and `b` are the same, and what corresponds in them is on the same side of every
mark. -/
def Twins (P : ForestPair s) (a b : NodeId) : Prop :=
  a < P.left.size ∧ b < P.right.size ∧ (∀ m ∈ P.marks, a < m.1 ↔ b < m.2) ∧
    (P.left.node a).Parallel (fun c d => P.Twins c.val d) (P.right.get b)
termination_by a
decreasing_by exact c.isLt

theorem twins_iff : P.Twins a b ↔ a < P.left.size ∧ b < P.right.size ∧
    (∀ m ∈ P.marks, a < m.1 ↔ b < m.2) ∧ (P.left.get a).Parallel P.Twins (P.right.get b) := by
  rw [Twins, P.left.get_eq_map_node a, Node.parallel_map_left]

namespace Twins

theorem left_lt (h : P.Twins a b) : a < P.left.size := (twins_iff.mp h).1

theorem right_lt (h : P.Twins a b) : b < P.right.size := (twins_iff.mp h).2.1

theorem lt_iff (h : P.Twins a b) {m : Nat × Nat} (hm : m ∈ P.marks) : a < m.1 ↔ b < m.2 :=
  (twins_iff.mp h).2.2.1 m hm

theorem get (h : P.Twins a b) : (P.left.get a).Parallel P.Twins (P.right.get b) :=
  (twins_iff.mp h).2.2.2

theorem node (h : P.Twins a b) :
    (P.left.node a).Parallel (fun c d => P.Twins c.val d.val) (P.right.node b) := by
  have hget := h.get
  rw [Forest.get_eq_map_node, Forest.get_eq_map_node, Node.parallel_map_left,
    Node.parallel_map_right] at hget
  exact hget

end Twins

/-- What is known of the children of twins, if it follows for twins from that. -/
theorem Twins.induction {Q : NodeId → NodeId → Prop}
    (step : ∀ a b, P.Twins a b → (P.left.get a).Parallel Q (P.right.get b) → Q a b)
    (h : P.Twins a b) : Q a b := by
  induction a using Nat.strongRecOn generalizing b with
  | ind a ih =>
    exact step a b h (h.get.mono fun c hc d _ hcd => ih c (P.left.child_lt_of_mem hc) hcd)

/-! ## Growing pairs -/

/-- All that both forests hold stands unchanged. -/
structure Extends (P P' : ForestPair s) : Prop where
  left : P.left.Extends P'.left
  right : P.right.Extends P'.right
  marks_eq : P'.marks = P.marks

namespace Extends

theorem refl (P : ForestPair s) : P.Extends P := ⟨.refl _, .refl _, rfl⟩

theorem trans (h : P.Extends P') (h' : P'.Extends P'') : P.Extends P'' :=
  ⟨h.left.trans h'.left, h.right.trans h'.right, h'.marks_eq.trans h.marks_eq⟩

theorem twins (h : P.Extends P') (hab : P.Twins a b) : P'.Twins a b := by
  refine hab.induction ?_
  intro a b hab hchildren
  refine twins_iff.mpr ⟨?_, ?_, ?_, ?_⟩
  · exact Nat.lt_of_lt_of_le hab.left_lt h.left.size_le
  · exact Nat.lt_of_lt_of_le hab.right_lt h.right.size_le
  · intro m hm
    exact hab.lt_iff (h.marks_eq ▸ hm)
  · rw [h.left.get_eq a hab.left_lt, h.right.get_eq b hab.right_lt]
    exact hchildren

end Extends

/-- Both forests are well-formed, and no mark lies beyond their ends. -/
structure Ready (P : ForestPair s) : Prop where
  left : P.left.WellFormed
  right : P.right.WellFormed
  marks_le : ∀ m ∈ P.marks, m.1 ≤ P.left.size ∧ m.2 ≤ P.right.size

theorem Ready.later (hP : P.Ready) (h : P.Extends P') (hl : P'.left.WellFormed)
    (hr : P'.right.WellFormed) : P'.Ready where
  left := hl
  right := hr
  marks_le m hm := by
    obtain ⟨hl, hr⟩ := hP.marks_le m (h.marks_eq ▸ hm)
    exact ⟨Nat.le_trans hl h.left.size_le, Nat.le_trans hr h.right.size_le⟩

/-- Both forests with a node appended. -/
def push (P : ForestPair s) (n n' : Node NodeId) : ForestPair s :=
  ⟨P.left.push n, P.right.push n', P.marks⟩

section Push

variable {n n' : Node NodeId}

theorem child_lt_left (h : n.Parallel P.Twins n') : ∀ c ∈ n.children, c < P.left.size := by
  intro c hc
  obtain ⟨d, -, hcd⟩ := exists_mem_of_forall₂ h.forall₂_children hc
  exact hcd.left_lt

theorem child_lt_right (h : n.Parallel P.Twins n') : ∀ d ∈ n'.children, d < P.right.size := by
  intro d hd
  obtain ⟨c, -, hcd⟩ := exists_mem_of_forall₂ h.forall₂_children.flip hd
  exact hcd.right_lt

theorem extends_push (h : n.Parallel P.Twins n') : P.Extends (P.push n n') :=
  ⟨Forest.extends_push (child_lt_left h), Forest.extends_push (child_lt_right h), rfl⟩

/-- Nodes that are put on top of twins are twins. -/
theorem twins_push (hP : P.Ready) (h : n.Parallel P.Twins n') :
    (P.push n n').Twins P.left.size P.right.size := by
  refine twins_iff.mpr ⟨?_, ?_, ?_, ?_⟩
  · exact Nat.lt_of_lt_of_eq (Nat.lt_succ_self _) (Forest.size_push (child_lt_left h)).symm
  · exact Nat.lt_of_lt_of_eq (Nat.lt_succ_self _) (Forest.size_push (child_lt_right h)).symm
  · -- What is new is beyond every mark.
    intro m hm
    obtain ⟨hl, hr⟩ := hP.marks_le m hm
    exact iff_of_false (Nat.not_lt.mpr hl) (Nat.not_lt.mpr hr)
  · have hleft : (P.push n n').left.get P.left.size = n := Forest.get_push_size (child_lt_left h)
    have hright : (P.push n n').right.get P.right.size = n' :=
      Forest.get_push_size (child_lt_right h)
    rw [hleft, hright]
    exact h.mono fun _ _ _ _ => (extends_push h).twins

end Push

/-- The pair with a mark at its present size. -/
def mark (P : ForestPair s) : ForestPair s :=
  { P with marks := (P.left.size, P.right.size) :: P.marks }

theorem Ready.mark (hP : P.Ready) : P.mark.Ready where
  left := hP.left
  right := hP.right
  marks_le m hm := by
    rcases List.mem_cons.mp hm with rfl | hm
    · exact ⟨Nat.le_refl _, Nat.le_refl _⟩
    · exact hP.marks_le m hm

/-- All that is there comes before a new mark. -/
theorem Twins.mark (h : P.Twins a b) : P.mark.Twins a b := by
  refine h.induction ?_
  intro a b hab hchildren
  refine twins_iff.mpr ⟨hab.left_lt, hab.right_lt, ?_, hchildren⟩
  intro m hm
  rcases List.mem_cons.mp hm with rfl | hm
  · exact iff_of_true hab.left_lt hab.right_lt
  · exact hab.lt_iff hm

/-- Twins are so with fewer marks, too. -/
theorem Twins.forget {f g : Forest s} {m : Nat × Nat} {marks : List (Nat × Nat)}
    (h : (⟨f, g, m :: marks⟩ : ForestPair s).Twins a b) :
    (⟨f, g, marks⟩ : ForestPair s).Twins a b := by
  refine h.induction ?_
  intro a b hab hchildren
  refine twins_iff.mpr ⟨hab.left_lt, hab.right_lt, ?_, hchildren⟩
  intro m hm
  exact hab.lt_iff (List.mem_cons_of_mem _ hm)

/-! ## Equal subtrees -/

/-- Twins of equal nodes are equal. -/
theorem Twins.compare_right (hx : P.Twins x x') (hy : P.Twins y y') (h : P.left.compare x y = .eq) :
    P.right.compare x' y' = .eq := by
  induction x' using Nat.strongRecOn generalizing x y y' with
  | ind x' ih =>
    refine Forest.compare_of_alike (Node.Alike.mono
      ((hx.get.alike.flip.comp (Forest.alike_of_compare h)).comp hy.get.alike) ?_)
    rintro c' hc' d' - ⟨d, ⟨c, hc, hcd⟩, hd⟩
    exact ih c' (P.right.child_lt_of_mem hc') hc hd hcd

theorem Twins.compare_left (hx : P.Twins x x') (hy : P.Twins y y')
    (h : P.right.compare x' y' = .eq) : P.left.compare x y = .eq := by
  induction x using Nat.strongRecOn generalizing x' y y' with
  | ind x ih =>
    refine Forest.compare_of_alike (Node.Alike.mono
      ((hx.get.alike.comp (Forest.alike_of_compare h)).comp hy.get.alike.flip) ?_)
    rintro c hc d - ⟨d', ⟨c', hc', hcd⟩, hd⟩
    exact ih c (P.left.child_lt_of_mem hc) hc' hd hcd

end ForestPair

/-! ## Schemas without repeated names -/

namespace Schema

/-- No two kinds share a name, nor do two members of one kind. -/
structure Distinct (s : Schema) : Prop where
  names : s.names.Nodup
  members : ∀ k, ((s.layout k).map MemberDecl.name).Nodup

theorem length_names (s : Schema) : s.names.length = s.size := by
  rw [names, List.length_map, Array.length_toList]
  rfl

theorem getElem?_names {s : Schema} {k : KindId} (hk : k < s.size) :
    s.names[k]? = some (s.name k) := by
  rw [names, List.getElem?_map, Array.getElem?_toList, Schema.name, Array.getElem?_eq_getElem hk]
  rfl

theorem Distinct.eq_of_name {s : Schema} (hs : s.Distinct) {k k' : KindId} (hk : k < s.size)
    (hk' : k' < s.size) (h : s.name k = s.name k') : k = k' := by
  refine (List.getElem?_inj (s.length_names.symm ▸ hk) hs.names).mp ?_
  rw [getElem?_names hk, getElem?_names hk', h]

end Schema

/-! ## Trees taken out of a forest -/

/-- What a tree has for a member, unless it is empty. -/
def Member.branch? {α : Type} (tree : α → Tree) : Member α → Option Branch
  | .single (some c) => some (.one (tree c))
  | .sequence (c :: cs) | .collection (c :: cs) => some (.many ((c :: cs).map tree))
  | _ => none

theorem Member.branch?_map {α β : Type} (g : α → β) (tree : β → Tree) (m : Member α) :
    (m.map g).branch? tree = m.branch? fun a => tree (g a) := by
  rcases m with (_ | c) | (_ | ⟨c, cs⟩) | (_ | ⟨c, cs⟩) <;>
    simp [Member.map, Member.branch?]

/-- What stands in two members is the same if they are of one category and come to the same in a
tree. -/
theorem Member.parallel_of_branch? {α β : Type} {tree : α → Tree} {tree' : β → Tree} {m : Member α}
    {m' : Member β} (hcat : m.category = m'.category) (h : m.branch? tree = m'.branch? tree') :
    m.Parallel (fun a b => tree a = tree' b) m' := by
  have hlist {xs : List α} {ys : List β} (h : xs.map tree = ys.map tree') :
      List.Forall₂ (fun a b => tree a = tree' b) xs ys := by
    rw [← List.forall₂_eq_eq_eq, List.forall₂_map_left_iff, List.forall₂_map_right_iff] at h
    exact h
  rcases m with (_ | c) | (_ | ⟨c, cs⟩) | (_ | ⟨c, cs⟩) <;>
    rcases m' with (_ | d) | (_ | ⟨d, ds⟩) | (_ | ⟨d, ds⟩) <;>
    simp only [Member.category, Member.branch?, reduceCtorEq, Option.some.injEq, Branch.one.injEq,
      Branch.many.injEq] at hcat h
  · exact .single .none
  · exact .single (.some h)
  · exact .sequence .nil
  · exact .sequence (hlist h)
  · exact .collection .nil
  · exact .collection (hlist h)

theorem Member.Parallel.branch?_eq {α β : Type} {tree : α → Tree} {tree' : β → Tree} {m : Member α}
    {m' : Member β} (h : m.Parallel (fun a b => tree a = tree' b) m') :
    m.branch? tree = m'.branch? tree' := by
  have hlist {xs : List α} {ys : List β} (h : List.Forall₂ (fun a b => tree a = tree' b) xs ys) :
      xs.map tree = ys.map tree' := by
    rw [← List.forall₂_eq_eq_eq, List.forall₂_map_left_iff, List.forall₂_map_right_iff]
    exact h
  cases h with
  | single h =>
    cases h with
    | none => rfl
    | some h => exact congrArg (fun t => some (Branch.one t)) h
  | sequence h =>
    cases h with
    | nil => rfl
    | cons h hs => exact congrArg (fun ts => some (Branch.many ts)) (hlist (.cons h hs))
  | collection h =>
    cases h with
    | nil => rfl
    | cons h hs => exact congrArg (fun ts => some (Branch.many ts)) (hlist (.cons h hs))

theorem lookup_insertMember {α : Type} {name k : String} {b : α} {ms : List (String × α)} :
    (insertMember name b ms).lookup k = if k = name then some b else ms.lookup k := by
  have hcons (ms : List (String × α)) :
      ((name, b) :: ms).lookup k = if k = name then some b else ms.lookup k := by
    by_cases h : k = name
    · rw [if_pos h, h, List.lookup_cons_self]
    · rw [if_neg h, List.lookup_cons, beq_eq_false_iff_ne.mpr h]
  induction ms with
  | nil => exact hcons []
  | cons m ms ih =>
    obtain ⟨j, c⟩ := m
    rw [insertMember]
    by_cases hlt : name < j
    · rw [if_pos hlt, hcons]
    · rw [if_neg hlt]
      by_cases hj : name = j
      · rw [if_pos hj, hcons]
        by_cases hk : k = name
        · rw [if_pos hk, if_pos hk]
        · rw [if_neg hk, if_neg hk, List.lookup_cons, beq_eq_false_iff_ne.mpr (hj ▸ hk)]
      · rw [if_neg hj]
        by_cases hk : k = j
        · rw [hk, List.lookup_cons_self, List.lookup_cons_self, if_neg (Ne.symm hj)]
        · rw [List.lookup_cons, List.lookup_cons, beq_eq_false_iff_ne.mpr hk]
          exact ih

/-- Put a branch among the members of a tree, if there is one. -/
def addBranch (ms : List (String × Branch)) (e : MemberDecl × Option Branch) :
    List (String × Branch) :=
  match e.2 with
  | some b => insertMember e.1.name b ms
  | none => ms

theorem lookup_addBranch_of_ne {ms : List (String × Branch)} {e : MemberDecl × Option Branch}
    {k : String} (h : k ≠ e.1.name) : (addBranch ms e).lookup k = ms.lookup k := by
  obtain ⟨d, b | b⟩ := e
  · rfl
  · rw [addBranch, lookup_insertMember, if_neg h]

theorem lookup_foldl_addBranch_of_ne {ms : List (String × Branch)}
    {es : List (MemberDecl × Option Branch)} {k : String} (h : ∀ e ∈ es, k ≠ e.1.name) :
    (es.foldl addBranch ms).lookup k = ms.lookup k := by
  induction es generalizing ms with
  | nil => rfl
  | cons e es ih =>
    rw [List.forall_mem_cons] at h
    rw [List.foldl_cons, ih h.2, lookup_addBranch_of_ne h.1]

/-- Under different names no branch gets lost. -/
theorem lookup_foldl_addBranch {ms : List (String × Branch)}
    {es : List (MemberDecl × Option Branch)} {e : MemberDecl × Option Branch}
    (hnodup : (es.map fun e => e.1.name).Nodup) (he : e ∈ es)
    (hms : ms.lookup e.1.name = none) : (es.foldl addBranch ms).lookup e.1.name = e.2 := by
  induction es generalizing ms with
  | nil => cases he
  | cons e' es ih =>
    rw [List.map_cons, List.nodup_cons, List.mem_map] at hnodup
    rw [List.foldl_cons]
    rcases List.mem_cons.mp he with rfl | he
    · have hfree : ∀ e' ∈ es, e.1.name ≠ e'.1.name := fun e' he' heq => hnodup.1 ⟨e', he', heq.symm⟩
      rw [lookup_foldl_addBranch_of_ne hfree]
      obtain ⟨d, b | b⟩ := e
      · exact hms
      · rw [addBranch, lookup_insertMember, if_pos rfl]
    · have hne : e.1.name ≠ e'.1.name := fun heq => hnodup.1 ⟨e, he, heq⟩
      exact ih hnodup.2 he ((lookup_addBranch_of_ne hne).trans hms)

/-- The members of a tree by name. -/
def nameBranches (layout : List MemberDecl) (branches : List (Option Branch)) :
    List (String × Branch) :=
  (layout.zip branches).foldl addBranch []

theorem map_name_zip {layout : List MemberDecl} {bs : List (Option Branch)}
    (hlen : bs.length = layout.length) :
    (layout.zip bs).map (fun e => e.1.name) = layout.map MemberDecl.name := by
  calc
    _ = ((layout.zip bs).map Prod.fst).map MemberDecl.name := (List.map_map ..).symm
    _ = _ := by rw [List.map_fst_zip (Nat.le_of_eq hlen.symm)]

theorem nameBranches_inj {layout : List MemberDecl} {bs bs' : List (Option Branch)}
    (hnodup : (layout.map MemberDecl.name).Nodup) (hlen : bs.length = layout.length)
    (hlen' : bs'.length = layout.length) (h : nameBranches layout bs = nameBranches layout bs') :
    bs = bs' := by
  have hlookup {bs : List (Option Branch)} (hlen : bs.length = layout.length) {d : MemberDecl}
      {b : Option Branch} (hmem : (d, b) ∈ layout.zip bs) :
      (nameBranches layout bs).lookup d.name = b := by
    refine lookup_foldl_addBranch (e := (d, b)) ?_ hmem rfl
    rw [map_name_zip hlen]
    exact hnodup
  refine List.ext_getElem (hlen.trans hlen'.symm) fun i hi hi' => ?_
  have hd : i < layout.length := hlen ▸ hi
  have hmem : (layout[i], bs[i]) ∈ layout.zip bs := by
    rw [← List.getElem_zip (h := by simp [hd, hi])]
    exact List.getElem_mem _
  have hmem' : (layout[i], bs'[i]) ∈ layout.zip bs' := by
    rw [← List.getElem_zip (h := by simp [hd, hi'])]
    exact List.getElem_mem _
  rw [← hlookup hlen hmem, ← hlookup hlen' hmem', h]

namespace Forest

theorem treeAt_eq (f : Forest s) (a : NodeId) :
    f.treeAt a = .node (s.name (f.get a).kind) (f.get a).value
    (nameBranches (s.layout (f.get a).kind) ((f.get a).members.map (Member.branch? f.treeAt))) := by
  have hmembers : (f.get a).members = (f.node a).members.map (Member.map Fin.val) :=
    congrArg Node.members (f.get_eq_map_node a)
  have hbranches : (f.get a).members.map (Member.branch? f.treeAt) =
      (f.node a).members.map (Member.branch? fun c => f.treeAt c.val) := by
    rw [hmembers, List.map_map]
    exact List.map_congr_left fun m _ => Member.branch?_map Fin.val f.treeAt m
  rw [treeAt, hbranches, nameBranches, List.zip_map_right, List.foldl_map]
  refine congrArg (Tree.node _ _) (List.foldl_ext _ _ _ fun ms e _ => ?_)
  obtain ⟨d, (_ | c) | (_ | ⟨c, cs⟩) | (_ | ⟨c, cs⟩)⟩ := e <;> rfl

end Forest

namespace ForestPair

variable {f g : Forest s} {P : ForestPair s} {a b : NodeId}

theorem Twins.treeAt_eq (h : P.Twins a b) : P.left.treeAt a = P.right.treeAt b := by
  refine Twins.induction (Q := fun a b => P.left.treeAt a = P.right.treeAt b) ?_ h
  intro a b hab hchildren
  have hbranches : (P.left.get a).members.map (Member.branch? P.left.treeAt) =
      (P.right.get b).members.map (Member.branch? P.right.treeAt) := by
    rw [← List.forall₂_eq_eq_eq, List.forall₂_map_left_iff, List.forall₂_map_right_iff]
    exact hchildren.members.imp fun m m' => Member.Parallel.branch?_eq
  rw [Forest.treeAt_eq, Forest.treeAt_eq, hchildren.kind_eq, hchildren.value_eq, hbranches]

/-- Nodes at which the same tree is found have the same trees below them. -/
theorem parallel_of_treeAt_eq (hs : s.Distinct) (hf : (f.get a).Fits s) (hg : (g.get b).Fits s)
    (h : f.treeAt a = g.treeAt b) :
    (f.get a).Parallel (fun c d => f.treeAt c = g.treeAt d) (g.get b) := by
  rw [Forest.treeAt_eq, Forest.treeAt_eq, Tree.node.injEq] at h
  obtain ⟨hname, hvalue, hbranches⟩ := h
  have hkind : (f.get a).kind = (g.get b).kind := hs.eq_of_name hf.kind_lt hg.kind_lt hname
  have hfit := hg.members
  rw [← hkind] at hbranches hfit
  have hsame := nameBranches_inj (hs.members _) (by simpa using hf.members.length_eq)
    (by simpa using hfit.length_eq) hbranches
  have hcategories : (f.get a).members.map Member.category =
      (g.get b).members.map Member.category :=
    hf.members.trans hfit.symm
  rw [← List.forall₂_eq_eq_eq, List.forall₂_map_left_iff, List.forall₂_map_right_iff]
    at hsame hcategories
  refine ⟨hkind, hvalue, List.forall₂_iff_zip.mpr ⟨hsame.length_eq, ?_⟩⟩
  intro m m' hmem
  exact Member.parallel_of_branch? (List.forall₂_zip hcategories hmem) (List.forall₂_zip hsame hmem)

/-- The same tree in two forests makes twins. -/
theorem twins_of_treeAt_eq (hs : s.Distinct) (hf : f.WellFormed) (hg : g.WellFormed)
    (ha : a < f.size) (hb : b < g.size) (h : f.treeAt a = g.treeAt b) :
    (⟨f, g, []⟩ : ForestPair s).Twins a b := by
  induction a using Nat.strongRecOn generalizing b with
  | ind a ih =>
    refine twins_iff.mpr ⟨ha, hb, fun m hm => (List.not_mem_nil hm).elim, ?_⟩
    refine (parallel_of_treeAt_eq hs (hf.get ha) (hg.get hb) h).mono ?_
    intro c hc d hd hcd
    have hca := f.child_lt_of_mem hc
    exact ih c hca (Nat.lt_trans hca ha) (Nat.lt_trans (g.child_lt_of_mem hd) hb) hcd

end ForestPair

end Espalier
