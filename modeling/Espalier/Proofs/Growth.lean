import Espalier.Proofs.Equality
import Espalier.Proofs.WellFormed

/-!
# Growing forests

A forest only grows: what it holds stays as it is, and so does what is equal in it.  The nodes that
came in between two stages of a forest are new to the earlier one.  Those of several steps, one
after the other, are distinct and may stand in one collection.
-/

namespace Espalier

variable {s : Schema}

/-! ## Growing forests -/

namespace Forest

variable {f f' f'' : Forest s} {x y : NodeId}

/-- All that `f` holds stands unchanged in `f'`. -/
structure Extends (f f' : Forest s) : Prop where
  size_le : f.size ≤ f'.size
  get_eq : ∀ x < f.size, f'.get x = f.get x

theorem Extends.refl (f : Forest s) : f.Extends f := ⟨Nat.le_refl _, fun _ _ => rfl⟩

theorem Extends.trans (h : f.Extends f') (h' : f'.Extends f'') : f.Extends f'' where
  size_le := Nat.le_trans h.size_le h'.size_le
  get_eq x hx := (h'.get_eq x (Nat.lt_of_lt_of_le hx h.size_le)).trans (h.get_eq x hx)

theorem Extends.getElem?_eq (h : f.Extends f') {n : Node NodeId} (hn : f.nodes[x]? = some n) :
    f'.nodes[x]? = some n := by
  have hx : x < f.size := (Array.getElem?_eq_some_iff.mp hn).1
  have hx' : x < f'.size := Nat.lt_of_lt_of_le hx h.size_le
  have hget : f'.get x = n := by
    rw [h.get_eq x hx, get, hn]
    rfl
  rw [get, Array.getElem?_eq_getElem hx'] at hget
  rw [Array.getElem?_eq_getElem hx']
  exact congrArg some hget

section Push

variable {n : Node NodeId} (h : ∀ c ∈ n.children, c < f.size)

include h

theorem size_push : (f.push n).size = f.size + 1 := by
  rw [push, dif_pos h]
  exact Array.size_push ..

theorem get_push_size : (f.push n).get f.size = n := by
  rw [push, dif_pos h]
  simp [get, size]

theorem extends_push : f.Extends (f.push n) where
  size_le := by
    rw [size_push h]
    exact Nat.le_succ _
  get_eq x hx := by
    have hne : x ≠ f.nodes.size := Nat.ne_of_lt hx
    rw [push, dif_pos h]
    simp [get, Array.getElem?_push, hne]

end Push

/-- Two nodes of the forest with equal subtrees. -/
abbrev Same (f : Forest s) : NodeId → NodeId → Prop := f.EqualBelow f.size

theorem Extends.same (h : f.Extends f') (hxy : f.Same x y) : f'.Same x y := by
  induction x using Nat.strongRecOn generalizing y with
  | ind x ih =>
    have hx := Nat.lt_of_lt_of_le hxy.left_lt h.size_le
    have hy := Nat.lt_of_lt_of_le hxy.right_lt h.size_le
    refine .of_alike hx hy ?_
    rw [h.get_eq x hxy.left_lt, h.get_eq y hxy.right_lt]
    exact hxy.get.mono fun c hc d _ hcd => ih c (f.child_lt_of_mem hc) hcd

/-- A node that differs from one of before in children that are equal to its own is equal to it. -/
theorem Extends.same_of_alike (h : f.Extends f') (hx : x < f.size) (hy : y < f'.size)
    (hxy : (f.get x).Alike f.Same (f'.get y)) : f'.Same x y := by
  refine .of_alike (Nat.lt_of_lt_of_le hx h.size_le) hy ?_
  rw [h.get_eq x hx]
  exact hxy.mono fun _ _ _ _ => h.same

/-- The node came in between `f` and `f'`. -/
structure New (f f' : Forest s) (x : NodeId) : Prop where
  size_le : f.size ≤ x
  lt_size : x < f'.size

theorem New.earlier (h : f.Extends f') (hx : f'.New f'' x) : f.New f'' x :=
  ⟨Nat.le_trans h.size_le hx.size_le, hx.lt_size⟩

theorem new_push {n : Node NodeId} (h : ∀ c ∈ n.children, c < f.size) :
    f.New (f.push n) f.size where
  size_le := Nat.le_refl _
  lt_size := by
    rw [size_push h]
    exact Nat.lt_succ_self _

/-- The nodes are distinct, and came in between `f` and `f'`. -/
structure Fresh (f f' : Forest s) (ids : List NodeId) : Prop where
  nodup : ids.Nodup
  size_le : ∀ x ∈ ids, f.size ≤ x
  lt_size : ∀ x ∈ ids, x < f'.size

namespace Fresh

variable {xs ys : List NodeId}

theorem nil : f.Fresh f' [] := ⟨.nil, by simp, by simp⟩

theorem singleton (hx : f.size ≤ x) (hx' : x < f'.size) : f.Fresh f' [x] :=
  ⟨List.nodup_singleton x, by simpa using hx, by simpa using hx'⟩

theorem new (h : f.Fresh f' xs) (hx : x ∈ xs) : f.New f' x := ⟨h.size_le x hx, h.lt_size x hx⟩

theorem append (h : f.Extends f') (h' : f'.Extends f'') (hxs : f.Fresh f' xs)
    (hys : f'.Fresh f'' ys) : f.Fresh f'' (xs ++ ys) where
  nodup := List.nodup_append.mpr ⟨hxs.nodup, hys.nodup, fun x hx y hy =>
    Nat.ne_of_lt (Nat.lt_of_lt_of_le (hxs.lt_size x hx) (hys.size_le y hy))⟩
  size_le x hx := by
    rcases List.mem_append.mp hx with hx | hx
    · exact hxs.size_le x hx
    · exact Nat.le_trans h.size_le (hys.size_le x hx)
  lt_size x hx := by
    rcases List.mem_append.mp hx with hx | hx
    · exact Nat.lt_of_lt_of_le (hxs.lt_size x hx) h'.size_le
    · exact hys.lt_size x hx

theorem later (h : f.Extends f') (hys : f'.Fresh f'' ys) : f.Fresh f'' ys :=
  ⟨hys.nodup, fun y hy => Nat.le_trans h.size_le (hys.size_le y hy), hys.lt_size⟩

end Fresh

theorem New.fresh (hx : f.New f' x) : f.Fresh f' [x] := .singleton hx.size_le hx.lt_size

theorem Fresh.head (h : f.Fresh f' [x]) : f.New f' x := h.new (List.mem_singleton_self x)

end Forest

/-! ## Nodes of the schema -/

/-- No collection of the node holds a child twice. -/
def Node.Unrepeated (n : Node NodeId) : Prop :=
  ∀ items, Member.collection items ∈ n.members → items.Nodup

theorem Node.unrepeated_of_nodup {n : Node NodeId} (h : n.children.Nodup) : n.Unrepeated :=
  fun _ hitems => (List.nodup_flatMap.mp h).1 _ hitems

/-- A node that agrees with one of the schema but for its children is one, too. -/
theorem Node.Fits.of_category {n n' : Node NodeId} (h : n.Fits s) (hkind : n'.kind = n.kind)
    (hvalue : n'.value = n.value)
    (hcats : n'.members.map Member.category = n.members.map Member.category)
    (hnodup : n'.Unrepeated) : n'.Fits s where
  kind_lt := hkind ▸ h.kind_lt
  valued := by
    rw [hkind, hvalue]
    exact h.valued
  members := by
    rw [hkind]
    exact hcats.trans h.members
  nodup := hnodup

theorem Node.Fits.of_alike {R : NodeId → NodeId → Prop} {n n' : Node NodeId} (h : n.Fits s)
    (hn : n.Alike R n') (hnodup : n'.Unrepeated) : n'.Fits s := by
  refine h.of_category hn.kind_eq.symm hn.value_eq.symm ?_ hnodup
  rw [← List.forall₂_eq_eq_eq, List.forall₂_map_left_iff, List.forall₂_map_right_iff]
  refine hn.members.flip.imp fun m' m hm => ?_
  cases hm <;> rfl

/-- A bare node fits a schema that has the topmost kind. -/
theorem fits_default (hs : s.WellFormed) (hpos : 0 < s.size) : (default : Node NodeId).Fits s where
  kind_lt := hpos
  valued h := by cases h
  members := by
    show [] = (s.layout Schema.nodeKind).map MemberDecl.category
    rw [hs.layout_node]
    rfl
  nodup items h := (List.not_mem_nil h).elim

/-- What holds in a forest holds in all that it grows to. -/
def Grow.Lasting {α : Type} (S : Forest s → α → Prop) : Prop :=
  ∀ (f f' : Forest s) (a : α), f.Extends f' → S f a → S f' a

end Espalier
