import Espalier.Proofs.Planting
import Mathlib.Data.String.Basic

/-!
# Trees into a forest and out again

A tree that is put into a forest comes out without its empty members, and otherwise as it was.  What
comes out of a forest has no empty members and fits the schema, so that it goes in again, and to a
node equal to the one that it came from.
-/

namespace Espalier

variable {s : Schema}

/-! ## Members by name -/

section Names

variable {α : Type} {ms ms' : List (String × α)} {name k : String} {b : α}

/-- The names come in their order, and none of them twice. -/
abbrev NamesSorted (ms : List (String × α)) : Prop := (ms.map Prod.fst).Pairwise (· < ·)

theorem lookup_eq_none_of_lt (h : ∀ j ∈ ms.map Prod.fst, k < j) : ms.lookup k = none := by
  induction ms with
  | nil => rfl
  | cons m ms ih =>
    rw [List.map_cons, List.forall_mem_cons] at h
    rw [List.lookup_cons, beq_eq_false_iff_ne.mpr (ne_of_lt h.1)]
    exact ih h.2

theorem lookup_tail_of_sorted {m : String × α} (h : NamesSorted (m :: ms)) (k : String) :
    ms.lookup k = if k = m.1 then none else (m :: ms).lookup k := by
  rw [NamesSorted, List.map_cons, List.pairwise_cons] at h
  split
  next hk => exact hk ▸ lookup_eq_none_of_lt h.1
  next hk => rw [List.lookup_cons, beq_eq_false_iff_ne.mpr hk]

/-- What stands among sorted names is found under its name. -/
theorem lookup_of_mem (h : NamesSorted ms) {m : String × α} (hm : m ∈ ms) :
    ms.lookup m.1 = some m.2 := by
  induction ms with
  | nil => cases hm
  | cons m' ms ih =>
    rcases List.mem_cons.mp hm with rfl | hm
    · exact List.lookup_cons_self
    · have htail := ih (List.pairwise_cons.mp h).2 hm
      rw [lookup_tail_of_sorted h] at htail
      split at htail
      next => cases htail
      next => exact htail

/-- Members in the order of their names are known by what is found under each name. -/
theorem eq_of_lookup_eq (h : NamesSorted ms) (h' : NamesSorted ms')
    (heq : ∀ k, ms.lookup k = ms'.lookup k) : ms = ms' := by
  induction ms generalizing ms' with
  | nil =>
    cases ms' with
    | nil => rfl
    | cons m' ms' =>
      have := heq m'.1
      rw [List.lookup_cons_self] at this
      cases this
  | cons m ms ih =>
    cases ms' with
    | nil =>
      have := heq m.1
      rw [List.lookup_cons_self] at this
      cases this
    | cons m' ms' =>
      have hfst : m.1 = m'.1 := by
        have hbelow := List.pairwise_cons.mp h
        have hbelow' := List.pairwise_cons.mp h'
        rcases lt_trichotomy m.1 m'.1 with hlt | hm | hlt
        · have hnone : (m' :: ms').lookup m.1 = none := by
            refine lookup_eq_none_of_lt (List.forall_mem_cons.mpr ⟨hlt, fun j hj => ?_⟩)
            exact lt_trans hlt (hbelow'.1 j hj)
          rw [← heq, List.lookup_cons_self] at hnone
          cases hnone
        · exact hm
        · have hnone : (m :: ms).lookup m'.1 = none := by
            refine lookup_eq_none_of_lt (List.forall_mem_cons.mpr ⟨hlt, fun j hj => ?_⟩)
            exact lt_trans hlt (hbelow.1 j hj)
          rw [heq, List.lookup_cons_self] at hnone
          cases hnone
      have hsnd : m.2 = m'.2 := by
        have := heq m.1
        rw [List.lookup_cons_self, hfst, List.lookup_cons_self] at this
        exact Option.some.inj this
      rw [Prod.ext hfst hsnd]
      refine congrArg _ (ih (List.pairwise_cons.mp h).2 (List.pairwise_cons.mp h').2 fun k => ?_)
      rw [lookup_tail_of_sorted h, lookup_tail_of_sorted h', heq, hfst]

theorem mem_insertMember {e : String × α} (h : e ∈ insertMember name b ms) :
    e = (name, b) ∨ e ∈ ms := by
  induction ms with
  | nil => exact .inl (List.mem_singleton.mp h)
  | cons m ms ih =>
    rw [insertMember] at h
    split at h
    next => exact List.mem_cons.mp h
    next =>
      split at h
      next => exact (List.mem_cons.mp h).imp_right (List.mem_cons_of_mem _)
      next =>
        rcases List.mem_cons.mp h with rfl | h
        · exact .inr List.mem_cons_self
        · exact (ih h).imp_right (List.mem_cons_of_mem _)

theorem sorted_insertMember (h : NamesSorted ms) : NamesSorted (insertMember name b ms) := by
  induction ms with
  | nil => exact List.pairwise_singleton _ _
  | cons m ms ih =>
    have hbelow := List.pairwise_cons.mp h
    rw [insertMember]
    split
    next hlt =>
      refine List.pairwise_cons.mpr ⟨List.forall_mem_cons.mpr ⟨hlt, fun j hj => ?_⟩, h⟩
      exact lt_trans hlt (hbelow.1 j hj)
    next hnlt =>
      split
      next heq => exact List.pairwise_cons.mpr ⟨heq ▸ hbelow.1, hbelow.2⟩
      next hne =>
        refine List.pairwise_cons.mpr ⟨fun j hj => ?_, ih hbelow.2⟩
        obtain ⟨e, he, rfl⟩ := List.mem_map.mp hj
        rcases mem_insertMember he with rfl | he
        · exact lt_of_le_of_ne (le_of_not_gt hnlt) (Ne.symm hne)
        · exact hbelow.1 _ (List.mem_map_of_mem he)

end Names

/-! ## Trees without their empty members -/

/-- The trees that a branch holds. -/
def Branch.trees : Branch → List Tree
  | .absent => []
  | .one t => [t]
  | .many ts => ts

/-- Whether a branch may stand for a member of the category. -/
def Branch.suits (category : Category) : Branch → Bool
  | .absent => true
  | .one _ => category = .single
  | .many _ => category ≠ .single

mutual

/-- The tree without its empty members, at every depth. -/
def Tree.pruned : Tree → Tree
  | .node kind value members => .node kind value (prunedMembers members)

/-- What is left of a branch, unless it is empty. -/
def Branch.pruned? : Branch → Option Branch
  | .absent => none
  | .one t => some (.one t.pruned)
  | .many [] => none
  | .many (t :: ts) => some (.many (t.pruned :: prunedTrees ts))

def prunedTrees : List Tree → List Tree
  | [] => []
  | t :: ts => t.pruned :: prunedTrees ts

def prunedMembers : List (String × Branch) → List (String × Branch)
  | [] => []
  | (name, b) :: ms =>
    match b.pruned? with
    | none => prunedMembers ms
    | some b => (name, b) :: prunedMembers ms

end

/-- At every depth the members come in the order of their names. -/
inductive Tree.Sorted : Tree → Prop where
  | node {kind : String} {value : Option Value} {members : List (String × Branch)}
      (names : NamesSorted members) (below : ∀ m ∈ members, ∀ t ∈ m.2.trees, t.Sorted) :
      Sorted (.node kind value members)

/-- At every depth the kinds are those of the schema, with the members and the values that they
have. -/
inductive Tree.Fits (s : Schema) : Tree → Prop where
  | node {kind : String} {k : KindId} {value : Option Value} {members : List (String × Branch)}
      (kind_eq : s.kind kind = .ok k) (valued : value.isSome → s.isValued k)
      (declared : ∀ m ∈ members, ∃ d ∈ s.layout k, d.name = m.1 ∧ m.2.suits d.category = true)
      (below : ∀ m ∈ members, ∀ t ∈ m.2.trees, t.Fits s) : Fits s (.node kind value members)

theorem prunedTrees_eq (ts : List Tree) : prunedTrees ts = ts.map Tree.pruned := by
  induction ts with
  | nil => rfl
  | cons t ts ih => rw [prunedTrees, ih, List.map_cons]

theorem lookup_prunedMembers {ms : List (String × Branch)} (h : NamesSorted ms) (k : String) :
    (prunedMembers ms).lookup k = (ms.lookup k).bind Branch.pruned? := by
  induction ms with
  | nil => rfl
  | cons m ms ih =>
    obtain ⟨name, b⟩ := m
    have htail := ih (List.pairwise_cons.mp h).2
    rw [lookup_tail_of_sorted h] at htail
    by_cases hk : k = name
    · subst hk
      rw [if_pos rfl] at htail
      rw [List.lookup_cons_self, prunedMembers, Option.bind_some]
      cases b.pruned? with
      | none => exact htail
      | some b => exact List.lookup_cons_self
    · rw [if_neg hk] at htail
      rw [prunedMembers, ← htail]
      cases b.pruned? with
      | none => rfl
      | some b =>
        show ((name, b) :: prunedMembers ms).lookup k = _
        rw [List.lookup_cons, beq_eq_false_iff_ne.mpr hk]

theorem sublist_prunedMembers (ms : List (String × Branch)) :
    ((prunedMembers ms).map Prod.fst).Sublist (ms.map Prod.fst) := by
  induction ms with
  | nil => exact .slnil
  | cons m ms ih =>
    obtain ⟨name, b⟩ := m
    rw [prunedMembers]
    cases b.pruned? with
    | none => exact ih.cons _
    | some b => exact ih.cons_cons _

theorem prunedMembers_eq_self {ms : List (String × Branch)} (h : ∀ m ∈ ms, m.2.pruned? = some m.2) :
    prunedMembers ms = ms := by
  induction ms with
  | nil => rfl
  | cons m ms ih =>
    obtain ⟨name, b⟩ := m
    rw [List.forall_mem_cons] at h
    rw [prunedMembers, h.1, ih h.2]

/-! ## The members of a tree in a forest -/

theorem sorted_foldl_addBranch {ms : List (String × Branch)}
    (es : List (MemberDecl × Option Branch)) (h : NamesSorted ms) :
    NamesSorted (es.foldl addBranch ms) := by
  induction es generalizing ms with
  | nil => exact h
  | cons e es ih =>
    refine ih ?_
    obtain ⟨d, b | b⟩ := e
    · exact h
    · exact sorted_insertMember h

theorem mem_foldl_addBranch {ms : List (String × Branch)} {es : List (MemberDecl × Option Branch)}
    {m : String × Branch} (h : m ∈ es.foldl addBranch ms) :
    m ∈ ms ∨ ∃ d, (d, some m.2) ∈ es ∧ d.name = m.1 := by
  induction es generalizing ms with
  | nil => exact .inl h
  | cons e es ih =>
    rcases ih h with h | ⟨d, hd, hname⟩
    · obtain ⟨d, b | b⟩ := e
      · exact .inl h
      · rcases mem_insertMember h with rfl | h
        · exact .inr ⟨d, List.mem_cons_self, rfl⟩
        · exact .inl h
    · exact .inr ⟨d, List.mem_cons_of_mem _ hd, hname⟩

/-- What the members of a layout have under their names is found there, and nothing else. -/
theorem lookup_nameBranches {layout : List MemberDecl} {g : String → Option Branch}
    (hnodup : (layout.map MemberDecl.name).Nodup)
    (hg : ∀ k, (∀ d ∈ layout, d.name ≠ k) → g k = none)
    (k : String) : (nameBranches layout (layout.map fun d => g d.name)).lookup k = g k := by
  rw [nameBranches, ← List.map_prod_left_eq_zip]
  by_cases h : ∃ d ∈ layout, d.name = k
  · obtain ⟨d, hd, rfl⟩ := h
    refine lookup_foldl_addBranch (e := (d, g d.name)) ?_ (List.mem_map.mpr ⟨d, hd, rfl⟩) rfl
    rw [List.map_map]
    exact hnodup
  · have hne : ∀ d ∈ layout, d.name ≠ k := fun d hd hname => h ⟨d, hd, hname⟩
    rw [hg k hne, lookup_foldl_addBranch_of_ne]
    · rfl
    · intro e he
      obtain ⟨d, hd, rfl⟩ := List.mem_map.mp he
      exact (hne d hd).symm

theorem Member.branch?_congr {α : Type} {tree tree' : α → Tree} {m : Member α}
    (h : ∀ c ∈ m.children, tree c = tree' c) : m.branch? tree = m.branch? tree' := by
  rcases m with (_ | c) | (_ | ⟨c, cs⟩) | (_ | ⟨c, cs⟩)
  · rfl
  · rw [branch?, branch?, h c (by simp [children])]
  · rfl
  · exact congrArg (fun ts => some (Branch.many ts)) (List.map_congr_left h)
  · rfl
  · exact congrArg (fun ts => some (Branch.many ts)) (List.map_congr_left h)

/-- A tree does not change as the forest grows. -/
theorem Forest.Extends.treeAt_eq {f f' : Forest s} (h : f.Extends f') {x : NodeId}
    (hx : x < f.size) : f'.treeAt x = f.treeAt x := by
  induction x using Nat.strongRecOn with
  | ind x ih =>
    rw [Forest.treeAt_eq, Forest.treeAt_eq, h.get_eq x hx]
    refine congrArg (fun bs => Tree.node _ _ (nameBranches _ bs))
      (List.map_congr_left fun m hm => ?_)
    refine Member.branch?_congr fun c hc => ?_
    have hlt := f.child_lt_of_mem (List.mem_flatMap_of_mem hm hc)
    exact ih c hlt (Nat.lt_trans hlt hx)

/-! ## Trees into a forest -/

theorem Schema.Indexed.name_of_kind (hs : s.Indexed) {kind : String} {k : KindId}
    (h : s.kind kind = .ok k) : k < s.size ∧ s.name k = kind := by
  rw [Schema.kind] at h
  split at h
  next k' hk =>
    obtain rfl := Except.ok.inj h
    exact hs.name_of_lookup hk
  next => cases h

theorem Schema.Indexed.kind_name (hs : s.Indexed) {k : KindId} (hk : k < s.size) :
    s.kind (s.name k) = .ok k := by
  rw [Schema.kind, hs.lookup_name hk]

theorem Schema.memberIndex_eq_none_iff {k : KindId} {name : String} :
    s.memberIndex k name = none ↔ ∀ d ∈ s.layout k, d.name ≠ name := by
  rw [Schema.memberIndex, List.findIdx?_eq_none_iff]
  simp only [beq_eq_false_iff_ne]

namespace Tree.Fits

variable {kind : String} {k : KindId} {value : Option Value} {members : List (String × Branch)}

theorem valued_of_kind (h : Fits s (.node kind value members)) (hk : s.kind kind = .ok k) :
    value.isSome → s.isValued k := by
  cases h with
  | node hk' hvalued _ _ =>
    cases hk.symm.trans hk'
    exact hvalued

theorem exists_decl (h : Fits s (.node kind value members)) (hk : s.kind kind = .ok k)
    {m : String × Branch} (hm : m ∈ members) :
    ∃ d ∈ s.layout k, d.name = m.1 ∧ m.2.suits d.category = true := by
  cases h with
  | node hk' _ hdeclared _ =>
    cases hk.symm.trans hk'
    exact hdeclared m hm

theorem suits_of_name (hs : s.Distinct) (h : Fits s (.node kind value members))
    (hk : s.kind kind = .ok k) {d : MemberDecl} (hd : d ∈ s.layout k) {b : Branch}
    (hb : (d.name, b) ∈ members) : b.suits d.category = true := by
  obtain ⟨d', hd', hname, hsuits⟩ := h.exists_decl hk hb
  rw [← List.inj_on_of_nodup_map (hs.members k) hd' hd hname]
  exact hsuits

theorem of_mem (h : Fits s (.node kind value members)) {m : String × Branch} (hm : m ∈ members)
    {t : Tree} (ht : t ∈ m.2.trees) : t.Fits s := by
  cases h with
  | node _ _ _ hbelow => exact hbelow m hm t ht

end Tree.Fits

/-- The member may stand in a node and carries a branch that fits there, or none. -/
structure Member.Carries (f : Forest s) (category : Category) (b : Option Branch)
    (m : Member NodeId) :
    Prop where
  sits : m.Sits f category
  branch?_eq : m.branch? f.treeAt = b.bind Branch.pruned?
  fits : ∀ b', b = some b' → b'.suits category = true ∧ ∀ t ∈ b'.trees, t.Fits s

namespace Member.Carries

variable {f : Forest s} {category : Category} {b : Option Branch}

theorem lasting : Grow.Lasting fun (f : Forest s) m => Carries f category b m := by
  intro f f' m hext h
  refine ⟨h.sits.later hext, Eq.trans (branch?_congr fun c hc => ?_) h.branch?_eq, h.fits⟩
  exact hext.treeAt_eq (h.sits.lt_size c hc)

theorem empty (hb : b = none ∨ b = some .absent) :
    (Member.empty category : Member NodeId).Carries f category b := by
  refine ⟨⟨Member.category_empty category, ?_, ?_⟩, ?_, ?_⟩
  · intro c hc
    rw [Member.children_empty] at hc
    cases hc
  · cases category <;> rintro _ ⟨⟩
    exact .nil
  · rcases hb with rfl | rfl <;> cases category <;> rfl
  · rintro b' rfl
    rcases hb with hb | hb
    · cases hb
    · cases hb
      exact ⟨rfl, List.forall_mem_nil _⟩

theorem single {t : Tree} {y : NodeId} (hy : y < f.size) (ht : f.treeAt y = t.pruned)
    (hfits : t.Fits s) : (Member.single (some y)).Carries f .single (some (.one t)) := by
  refine ⟨⟨rfl, ?_, by rintro _ ⟨⟩⟩, ?_, ?_⟩
  · intro c hc
    obtain rfl : c = y := by simpa [children] using hc
    exact hy
  · rw [branch?, Option.bind_some, Branch.pruned?, ht]
  · rintro _ ⟨⟩
    exact ⟨rfl, List.forall_mem_singleton.mpr hfits⟩

theorem branch?_many {ts : List Tree} {ys : List NodeId}
    (h : ys.map f.treeAt = ts.map Tree.pruned) :
    (Member.sequence ys).branch? f.treeAt = (Branch.many ts).pruned? ∧
      (Member.collection ys).branch? f.treeAt = (Branch.many ts).pruned? := by
  cases ts with
  | nil =>
    obtain rfl := List.map_eq_nil_iff.mp h
    exact ⟨rfl, rfl⟩
  | cons t ts =>
    cases ys with
    | nil => cases h
    | cons y ys =>
      rw [branch?, branch?, h, Branch.pruned?, prunedTrees_eq]
      exact ⟨rfl, rfl⟩

theorem sequence {ts : List Tree} {ys : List NodeId} (hys : ∀ y ∈ ys, y < f.size)
    (h : ys.map f.treeAt = ts.map Tree.pruned) (hfits : ∀ t ∈ ts, t.Fits s) :
    (Member.sequence ys).Carries f .sequence (some (.many ts)) := by
  refine ⟨⟨rfl, hys, by rintro _ ⟨⟩⟩, (branch?_many h).1, ?_⟩
  rintro _ ⟨⟩
  exact ⟨rfl, hfits⟩

theorem collection {ts : List Tree} {ys : List NodeId} (hys : ∀ y ∈ ys, y < f.size)
    (hnodup : ys.Nodup) (h : ys.map f.treeAt = ts.map Tree.pruned) (hfits : ∀ t ∈ ts, t.Fits s) :
    (Member.collection ys).Carries f .collection (some (.many ts)) := by
  refine ⟨⟨rfl, hys, ?_⟩, (branch?_many h).2, ?_⟩
  · rintro _ ⟨⟩
    exact hnodup
  · rintro _ ⟨⟩
    exact ⟨rfl, hfits⟩

end Member.Carries

/-- The tree fits the schema, and has been planted at `y` without its empty members. -/
structure Tree.GrownAt (t : Tree) (f f' : Forest s) (y : NodeId) : Prop where
  fits : t.Fits s
  treeAt_eq : f'.treeAt y = t.pruned
  planted : f.Planted f' [y]

namespace Grow

variable {f : Forest s} {kind : String} {value : Option Value} {members : List (String × Branch)}

/-- Trees that go in one after another are planted side by side. -/
theorem yields_addTrees {E : SchemaError → Prop} {items : List Tree}
    (h : ∀ t ∈ items, ∀ f' : Forest s, f'.WellFormed →
      (addTree t : Grow s SchemaError NodeId).Yields f' E fun f'' y => t.GrownAt f' f'' y)
    (hf : f.WellFormed) :
    (items.attach.mapM fun t => addTree t.val : Grow s SchemaError (List NodeId)).Yields f E
      fun f' ys =>
        f.Planted f' ys ∧ ys.map f'.treeAt = items.map Tree.pruned ∧ ∀ t ∈ items, t.Fits s := by
  have hmap :
      (items.attach.mapM fun t => addTree t.val : Grow s SchemaError (List NodeId)).Yields f E
        fun f' ys =>
          List.Forall₂ (fun t y => y < f'.size ∧ f'.treeAt y = t.val.pruned ∧ t.val.Fits s)
            items.attach ys ∧ f.Planted f' (ys.flatMap ([·])) := by
    refine Yields.mapM Forest.Planted.gathers _ ?_ ?_ hf
    · rintro t f' f'' y hext ⟨hy, ht, hfits⟩
      exact ⟨Nat.lt_of_lt_of_le hy hext.size_le, (hext.treeAt_eq hy).trans ht, hfits⟩
    · intro t _ f' _ hf'
      refine (h t.val t.property f' hf').imp ?_
      intro f'' y _ _ hy
      exact ⟨⟨hy.planted.lt_size (List.mem_singleton_self y), hy.treeAt_eq, hy.fits⟩, hy.planted⟩
  refine hmap.imp ?_
  rintro f' ys - - ⟨hys, hplanted⟩
  rw [List.flatMap_singleton'] at hplanted
  refine ⟨hplanted, ?_, fun t ht => ?_⟩
  · rw [← List.attach_map_val (f := Tree.pruned), ← List.forall₂_eq_eq_eq,
      List.forall₂_map_left_iff, List.forall₂_map_right_iff]
    exact hys.flip.imp fun y t hy => hy.2.1
  · obtain ⟨y, -, -, -, hfits⟩ := exists_mem_of_forall₂ hys (List.mem_attach items ⟨t, ht⟩)
    exact hfits

/-- The node of a tree whose members are in the forest already. -/
theorem yields_insert_grownAt (hs : s.Built) {f' : Forest s} (hext : f.Extends f')
    (hf' : f'.WellFormed) (names : NamesSorted members) {k : KindId} (hkind : s.kind kind = .ok k)
    (hknown : ∀ m ∈ members, ∃ d ∈ s.layout k, d.name = m.1) {ms : List (Member NodeId)}
    (hms : List.Forall₂ (fun d m => Member.Carries f' d.category (members.lookup d.name) m)
      (s.layout k) ms)
    (hplanted : f.Planted f' (ms.flatMap Member.children)) :
    (insert ⟨k, value, ms⟩ : Grow s SchemaError NodeId).Yields f'
      (fun _ => ¬ Tree.Fits s (.node kind value members)) fun f'' y =>
        Tree.GrownAt (.node kind value members) f f'' y := by
  obtain ⟨hlt, hname⟩ := hs.indexed.name_of_kind hkind
  refine (Yields.insert Forest.upheld_wellFormed hf' fun e he hfits => ?_).imp ?_
  · rw [Forest.check_of_sits hlt (hfits.valued_of_kind hkind) (hms.imp fun d m hm => hm.sits)] at he
    cases he
  · rintro f'' y hext' hf'' ⟨hpush, rfl, hget, -⟩
    have hy : f.Planted f'' [f'.size] := hpush ▸ hplanted.push hext
    have hvalued : value.isSome → s.isValued k := by
      have := (hf''.get (hy.lt_size (List.mem_singleton_self _))).valued
      rw [hget] at this
      exact this
    have hfound {m : String × Branch} (hm : m ∈ members) :
        ∃ d ∈ s.layout k, d.name = m.1 ∧ m.2.suits d.category = true ∧
          ∀ t ∈ m.2.trees, t.Fits s := by
      obtain ⟨d, hd, hdname⟩ := hknown m hm
      obtain ⟨m', -, hm'⟩ := exists_mem_of_forall₂ hms hd
      exact ⟨d, hd, hdname, hm'.fits m.2 (by rw [hdname]; exact lookup_of_mem names hm)⟩
    have hbranches : ms.map (Member.branch? f''.treeAt) =
        (s.layout k).map fun d => (members.lookup d.name).bind Branch.pruned? := by
      rw [← List.forall₂_eq_eq_eq, List.forall₂_map_left_iff, List.forall₂_map_right_iff]
      exact hms.flip.imp fun m d hm => (Member.Carries.lasting f' f'' m hext' hm).branch?_eq
    refine ⟨.node hkind hvalued (fun m hm => ?_) fun m hm => ?_, ?_, hy⟩
    · obtain ⟨d, hd, hdname, hsuits, -⟩ := hfound hm
      exact ⟨d, hd, hdname, hsuits⟩
    · obtain ⟨d, -, -, -, hfits⟩ := hfound hm
      exact hfits
    · rw [Forest.treeAt_eq, hget, Tree.pruned, hname, hbranches]
      refine congrArg _ (eq_of_lookup_eq (sorted_foldl_addBranch _ .nil)
        (names.sublist (sublist_prunedMembers members)) fun name => ?_)
      rw [lookup_prunedMembers names]
      refine lookup_nameBranches (g := fun name => (members.lookup name).bind Branch.pruned?)
        (hs.distinct.members k) (fun name hfree => ?_) name
      cases hb : members.lookup name with
      | none => rfl
      | some b =>
        obtain ⟨d, hd, hdname⟩ := hknown _ (mem_of_lookup hb)
        exact (hfree d hd hdname).elim

/-- A tree that fits the schema is planted in any forest, without its empty members, and a tree that
is planted fits. -/
theorem yields_grownAt_addTree (hs : s.Built) {t : Tree} (ht : t.Sorted) (hf : f.WellFormed) :
    (addTree t : Grow s SchemaError NodeId).Yields f (fun _ => ¬ t.Fits s) fun f' y =>
      t.GrownAt f f' y := by
  induction ht generalizing f with
  | @node kind value members names below ih =>
    have hchild {m : String × Branch} (hm : m ∈ members) {t : Tree} (ht : t ∈ m.2.trees)
        {f : Forest s} (hf : f.WellFormed) :
        (addTree t : Grow s SchemaError NodeId).Yields f
          (fun _ => ¬ Tree.Fits s (.node kind value members)) fun f' y => t.GrownAt f f' y :=
      (ih m hm t ht hf).mono (fun _ hnot hfits => hnot (hfits.of_mem hm ht)) fun _ _ _ _ => id
    rw [addTree]
    split
    next k hkind =>
      have hkind : s.kind kind = .ok k := hkind
      rw [pure_bind]
      dsimp only
      split
      next name b hunknown =>
        refine .throw hf fun hfits => ?_
        obtain ⟨d, hd, hname, -⟩ := hfits.exists_decl hkind (List.mem_of_find?_eq_some hunknown)
        have hnone := List.find?_some hunknown
        rw [Option.isNone_iff_eq_none, Schema.memberIndex_eq_none_iff] at hnone
        exact hnone d hd hname
      next hknown =>
        -- Members are added in the order of the layout; what one has brought stays as it is under
        -- the next.
        refine Yields.bind (Yields.mapM
          (R := fun f' (e : MemberDecl × Nat) m =>
            Member.Carries f' e.1.category (members.lookup e.1.name) m)
          Forest.Planted.gathers Member.children (fun e => Member.Carries.lasting) ?_ hf) ?_
        · rintro ⟨d, index⟩ hd f' - hf'
          have hd : d ∈ s.layout k := List.fst_mem_of_mem_zipIdx hd
          have hsuits {b : Branch} (hb : members.lookup d.name = some b)
              (hfits : Tree.Fits s (.node kind value members)) : b.suits d.category = true :=
            hfits.suits_of_name hs.distinct hkind hd (mem_of_lookup hb)
          have hempty : f'.Planted f' (Member.empty d.category).children := by
            rw [Member.children_empty]
            exact .nil f'
          dsimp only
          split
          next hlookup =>
            exact .pure hf' ⟨.empty (.inl hlookup), hempty⟩
          next hlookup =>
            exact .pure hf' ⟨.empty (.inr hlookup), hempty⟩
          next child hlookup =>
            rw [show members.lookup d.name = some (.one child) from hlookup]
            split
            next hcat =>
              refine (hchild (mem_of_lookup hlookup) (List.mem_singleton_self child) hf').bind ?_
              rintro f'' y - hf'' hy
              rw [hcat]
              exact .pure hf'' ⟨.single (hy.planted.lt_size (by simp)) hy.treeAt_eq
                hy.fits, hy.planted⟩
            next hcat =>
              refine .throw hf' fun hfits => hcat ?_
              simpa [Branch.suits] using hsuits hlookup hfits
          next items hlookup =>
            rw [show members.lookup d.name = some (.many items) from hlookup]
            have hitems := yields_addTrees (fun t (ht : t ∈ items) f' =>
              hchild (mem_of_lookup hlookup) ht) hf'
            split
            next hcat =>
              refine .throw hf' fun hfits => ?_
              have := hsuits hlookup hfits
              rw [hcat] at this
              cases this
            next hcat =>
              refine hitems.bind ?_
              rintro f'' ys - hf'' ⟨hplanted, hys, hfits⟩
              rw [hcat]
              exact .pure hf'' ⟨.sequence (fun y => hplanted.lt_size) hys hfits, hplanted⟩
            next hcat =>
              refine hitems.bind ?_
              rintro f'' ys - hf'' ⟨hplanted, hys, hfits⟩
              rw [hcat]
              exact .pure hf'' ⟨.collection (fun y => hplanted.lt_size) hplanted.nodup hys
                hfits, hplanted⟩
        · rintro f' ms hext hf' ⟨hms, hplanted⟩
          have hlayout : List.Forall₂
              (fun d m => Member.Carries f' d.category (members.lookup d.name) m)
              (s.layout k) ms := by
            rw [← List.zipIdx_map_fst 0 (s.layout k), List.forall₂_map_left_iff]
            exact hms
          have hdeclared : ∀ m ∈ members, ∃ d ∈ s.layout k, d.name = m.1 := by
            intro m hm
            have hsome := List.find?_eq_none.mp hknown m hm
            rw [Option.isNone_iff_eq_none, Schema.memberIndex_eq_none_iff] at hsome
            push Not at hsome
            exact hsome
          exact yields_insert_grownAt hs hext hf' names hkind hdeclared hlayout hplanted
    next e he =>
      refine .throw hf fun hfits => ?_
      cases hfits with
      | node hk _ _ _ => cases he.symm.trans hk

/-- A tree that is put into a forest comes out of it without its empty members.  One that fits the
schema can be put into any forest. -/
theorem yields_addTree (hs : s.Built) {t : Tree} (ht : t.Sorted) (hf : f.WellFormed) :
    (addTree t : Grow s SchemaError NodeId).Yields f (fun _ => ¬ t.Fits s) fun f' y =>
      f'.treeAt y = t.pruned ∧ f.Fresh f' [y] := by
  refine (yields_grownAt_addTree hs ht hf).imp ?_
  exact fun f' y _ _ hy => ⟨hy.treeAt_eq, hy.planted.fresh⟩

end Grow

/-! ## Trees out of a forest -/

namespace Member

variable {f : Forest s} {m : Member NodeId} {b : Branch} {tree : NodeId → Tree}

/-- The branch of a member holds the trees of its children. -/
theorem trees_of_branch? (h : m.branch? tree = some b) : b.trees = m.children.map tree := by
  rcases m with (_ | c) | (_ | ⟨c, cs⟩) | (_ | ⟨c, cs⟩) <;> cases h <;> rfl

theorem suits_of_branch? (h : m.branch? tree = some b) : b.suits m.category = true := by
  rcases m with (_ | c) | (_ | ⟨c, cs⟩) | (_ | ⟨c, cs⟩) <;> cases h <;> rfl

theorem pruned?_of_branch? (h : m.branch? tree = some b)
    (hpruned : ∀ c ∈ m.children, (tree c).pruned = tree c) : b.pruned? = some b := by
  have hmany {cs : List NodeId} (hcs : ∀ c ∈ cs, (tree c).pruned = tree c) :
      prunedTrees (cs.map tree) = cs.map tree := by
    rw [prunedTrees_eq, List.map_map]
    exact List.map_congr_left hcs
  rcases m with (_ | c) | (_ | ⟨c, cs⟩) | (_ | ⟨c, cs⟩) <;> cases h
  · rw [Branch.pruned?, hpruned c (by simp [children])]
  · rw [List.map_cons, Branch.pruned?, hpruned c List.mem_cons_self,
      hmany fun c hc => hpruned c (List.mem_cons_of_mem _ hc)]
  · rw [List.map_cons, Branch.pruned?, hpruned c List.mem_cons_self,
      hmany fun c hc => hpruned c (List.mem_cons_of_mem _ hc)]

end Member

namespace Forest

variable {f : Forest s} {a : NodeId}

/-- The members of a tree that is taken out of a forest are those of its node. -/
theorem exists_of_mem_treeAt (ha : (f.get a).Fits s) {m : String × Branch}
    (hm : m ∈ (f.treeAt a).members) :
    ∃ d ∈ s.layout (f.get a).kind, ∃ m' ∈ (f.get a).members,
      d.name = m.1 ∧ m'.category = d.category ∧ m'.branch? f.treeAt = some m.2 := by
  rw [treeAt_eq, Tree.members] at hm
  obtain ⟨d, hd, hname⟩ := (mem_foldl_addBranch hm).resolve_left List.not_mem_nil
  rw [List.zip_map_right, List.mem_map] at hd
  obtain ⟨⟨d', m'⟩, hzip, heq⟩ := hd
  obtain ⟨rfl, hbranch⟩ : d' = d ∧ m'.branch? f.treeAt = some m.2 := by simpa using heq
  have hcategories := ha.members
  rw [MembersFit, ← List.forall₂_eq_eq_eq, List.forall₂_map_left_iff, List.forall₂_map_right_iff]
    at hcategories
  obtain ⟨hd, hm'⟩ := List.of_mem_zip hzip
  exact ⟨d', hd, m', hm', hname, List.forall₂_zip hcategories.flip hzip, hbranch⟩

/-- A tree that is taken out of a forest is in order, fits the schema and has no empty members. -/
theorem treeAt_facts (hs : s.Indexed) (hf : f.WellFormed) (ha : a < f.size) :
    (f.treeAt a).Sorted ∧ (f.treeAt a).Fits s ∧ (f.treeAt a).pruned = f.treeAt a := by
  induction a using Nat.strongRecOn with
  | ind a ih =>
    have hfits := hf.get ha
    have hchild {m : Member NodeId} (hm : m ∈ (f.get a).members) {c : NodeId}
        (hc : c ∈ m.children) :
        (f.treeAt c).Sorted ∧ (f.treeAt c).Fits s ∧ (f.treeAt c).pruned = f.treeAt c := by
      have hlt := f.child_lt_of_mem (List.mem_flatMap_of_mem hm hc)
      exact ih c hlt (Nat.lt_trans hlt ha)
    have hmem {m : String × Branch} (hm : m ∈ (f.treeAt a).members) := exists_of_mem_treeAt hfits hm
    have hbelow {m : String × Branch} (hm : m ∈ (f.treeAt a).members) {t : Tree}
        (ht : t ∈ m.2.trees) : t.Sorted ∧ t.Fits s := by
      obtain ⟨d, -, m', hm', -, -, hbranch⟩ := hmem hm
      rw [Member.trees_of_branch? hbranch, List.mem_map] at ht
      obtain ⟨c, hc, rfl⟩ := ht
      exact ⟨(hchild hm' hc).1, (hchild hm' hc).2.1⟩
    rw [treeAt_eq] at hmem hbelow ⊢
    refine ⟨.node (sorted_foldl_addBranch _ .nil) fun m hm t ht => (hbelow hm ht).1,
      .node (hs.kind_name hfits.kind_lt) hfits.valued (fun m hm => ?_) fun m hm t ht =>
      (hbelow hm ht).2, ?_⟩
    · obtain ⟨d, hd, m', -, hname, hcat, hbranch⟩ := hmem hm
      exact ⟨d, hd, hname, hcat ▸ Member.suits_of_branch? hbranch⟩
    · rw [Tree.pruned, prunedMembers_eq_self]
      intro m hm
      obtain ⟨d, -, m', hm', -, -, hbranch⟩ := hmem hm
      exact Member.pruned?_of_branch? hbranch fun c hc => (hchild hm' hc).2.2

/-- Nodes at which the same tree is found are equal. -/
theorem compare_of_treeAt_eq (hs : s.Distinct) (hf : f.WellFormed) {b : NodeId} (ha : a < f.size)
    (hb : b < f.size) (h : f.treeAt a = f.treeAt b) : f.compare a b = .eq := by
  refine ForestPair.Twins.induction (Q := fun a b => f.compare a b = .eq) ?_
    (ForestPair.twins_of_treeAt_eq hs hf hf ha hb h)
  intro a b _ hchildren
  exact compare_of_alike hchildren.alike

/-- Taking a tree out of a forest and putting it in again makes a node equal to the one that it came
from, with the same tree.  Putting a tree into a forest and taking it out again takes its empty
members away, and nothing else. -/
theorem addTree_treeAt (hs : s.Built) (hf : f.WellFormed) :
    (∀ a < f.size, ∃ y f', Grow.addTree (f.treeAt a) f = .ok y f' ∧ f.Extends f' ∧
      f'.compare a y = .eq ∧ f'.treeAt y = f.treeAt a) ∧
    ∀ t : Tree, t.Sorted → ∀ y f', Grow.addTree t f = .ok y f' → f'.treeAt y = t.pruned := by
  refine ⟨fun a ha => ?_, fun t ht y f' hrun => ((Grow.yields_addTree hs ht hf).of_ok hrun).2.2.1⟩
  obtain ⟨hsorted, hfits, hpruned⟩ := treeAt_facts hs.indexed hf ha
  have hyields := Grow.yields_addTree hs hsorted hf
  obtain ⟨y, f', hrun, hext, hf', htree, hfresh⟩ :=
    (hyields.mono (fun _ hnot => hnot hfits) fun _ _ _ _ => id).exists_ok
  rw [hpruned] at htree
  refine ⟨y, f', hrun, hext, ?_, htree⟩
  refine compare_of_treeAt_eq hs.distinct hf' (Nat.lt_of_lt_of_le ha hext.size_le)
    (hfresh.lt_size y (by simp)) ?_
  rw [htree, hext.treeAt_eq ha]

/-- A bag of two empty bags, written down in two ways, and a leaf. -/
def spareBag : Tree :=
  .node "Bag" none [("items", .many [.node "Bag" none [("items", .absent)],
    .node "Bag" none [("items", .many [])], .node "Node" none []])]

theorem sorted_spareBag : spareBag.Sorted := by
  have hleaf : Tree.Sorted (.node "Node" none []) := .node .nil (List.forall_mem_nil _)
  have hbag {b : Branch} (h : ∀ t ∈ b.trees, t.Sorted) :
      Tree.Sorted (.node "Bag" none [("items", b)]) :=
    .node (List.pairwise_singleton _ _) (List.forall_mem_singleton.mpr h)
  refine hbag ?_
  simp only [Branch.trees, List.forall_mem_cons, List.not_mem_nil, false_imp_iff,
    implies_true, and_true]
  exact ⟨hbag (List.forall_mem_nil _), hbag (List.forall_mem_nil _), hleaf⟩

/-- A bag that is there already goes in once more, and one with empty members comes out without
them. -/
theorem addTree_treeAt_equalBags :
    (∃ y f', Grow.addTree (Rule.equalBags.treeAt 4) Rule.equalBags = .ok y f' ∧
      f'.compare 4 y = .eq ∧ f'.treeAt y = Rule.equalBags.treeAt 4) ∧
    ∃ f', Grow.addTree spareBag Rule.equalBags = .ok 8 f' ∧ f'.treeAt 8 = .node "Bag" none
      [("items", .many [.node "Bag" none [], .node "Bag" none [], .node "Node" none []])] := by
  have hs : Rule.bags.Built := .define .base Rule.define_bags
  have hpush {f : Forest Rule.bags} {n : Node NodeId} (hf : f.WellFormed) (h : f.check n = .ok ()) :
      (f.push n).WellFormed := hf.push (check_eq_ok_iff.mp h).1
  have hf : Rule.equalBags.WellFormed :=
    hpush (hpush (hpush (hpush (hpush wellFormed_empty rfl) rfl) rfl) rfl) rfl
  obtain ⟨hout, hin⟩ := addTree_treeAt hs hf
  obtain ⟨y, f', hrun, -, hcompare, htree⟩ := hout 4 (by decide)
  have hspare : (Grow.addTree spareBag).run' Rule.equalBags = some 8 := by decide +kernel
  obtain ⟨g, hg⟩ := Grow.exists_of_run'_eq_some hspare
  exact ⟨⟨y, f', hrun, hcompare, htree⟩, g, hg, hin spareBag sorted_spareBag 8 g hg⟩

end Forest

end Espalier
