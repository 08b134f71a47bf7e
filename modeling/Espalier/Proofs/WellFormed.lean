import Espalier.Pattern.Basic
import Mathlib.Data.List.Basic

/-!
# Well-formed schemas, forests and pattern sets

What the operations that build schemas, forests and pattern sets guarantee, as far as a search
relies on it.  Layouts grow along inheritance, so that a node of a sub-kind can be read as a node of
any ancestor; nodes and standard patterns follow the layout of their kind; stars stand in containers
only and no two of them share a collection.
-/

namespace Espalier

namespace Schema

/-- Layouts grow along inheritance, and the topmost kind has no members. -/
structure WellFormed (s : Schema) : Prop where
  layout_node : s.layout nodeKind = []
  layout_parent : ∀ {k p : KindId}, s.parent k = some p → s.layout p <+: s.layout k

theorem wellFormed_base : base.WellFormed where
  layout_node := rfl
  layout_parent {k p} h := by
    obtain ⟨d, hd, hp⟩ := Option.bind_eq_some_iff.mp h
    obtain ⟨hk, rfl⟩ := Array.getElem?_eq_some_iff.mp hd
    simp [base] at hp

theorem nodeKind_lt_base : ∀ p ∈ some nodeKind, p < base.size := by
  simp [base, size, nodeKind]

theorem isPrefix_of_extendLayout {kind : String} {layout members layout' : List MemberDecl}
    (h : extendLayout kind layout members = .ok layout') : layout <+: layout' := by
  induction members generalizing layout with
  | nil =>
    obtain rfl := Except.ok.inj h
    exact List.prefix_rfl
  | cons m ms ih =>
    rw [extendLayout] at h
    split at h
    next => cases h
    next => exact (List.prefix_append layout [m]).trans (ih h)

theorem layout_push_of_lt {s : Schema} {d : Kind} {h : ∀ p ∈ d.parent, p < s.size} {k : KindId}
    (hk : k < s.size) : (s.push d h).layout k = s.layout k := by
  simp [layout, push, Array.getElem?_push, Nat.ne_of_lt (show k < s.kinds.size from hk)]

theorem parent_push_of_lt {s : Schema} {d : Kind} {h : ∀ p ∈ d.parent, p < s.size} {k : KindId}
    (hk : k < s.size) : (s.push d h).parent k = s.parent k := by
  simp [parent, push, Array.getElem?_push, Nat.ne_of_lt (show k < s.kinds.size from hk)]

theorem size_push {s : Schema} {d : Kind} {h : ∀ p ∈ d.parent, p < s.size} :
    (s.push d h).size = s.size + 1 := Array.size_push ..

theorem layout_push_size {s : Schema} {d : Kind} {h : ∀ p ∈ d.parent, p < s.size} :
    (s.push d h).layout s.size = d.layout := by
  simp [layout, push, size]

theorem layout_of_size_le {s : Schema} {k : KindId} (hk : s.size ≤ k) : s.layout k = [] := by
  rw [layout, Array.getElem?_eq_none hk]

theorem parent_of_size_le {s : Schema} {k : KindId} (hk : s.size ≤ k) : s.parent k = none := by
  rw [parent, Array.getElem?_eq_none hk]
  rfl

section Enter

variable {s : Schema} {name : String} {k : KindId}

@[simp] theorem size_enter : (s.enter name k).size = s.size := rfl

@[simp] theorem layout_enter {j : KindId} : (s.enter name k).layout j = s.layout j := rfl

@[simp] theorem parent_enter {j : KindId} : (s.enter name k).parent j = s.parent j := rfl

@[simp] theorem name_enter {j : KindId} : (s.enter name k).name j = s.name j := rfl

@[simp] theorem isValued_enter {j : KindId} : (s.enter name k).isValued j = s.isValued j := rfl

@[simp] theorem names_enter : (s.enter name k).names = s.names := rfl

theorem lookup_enter {name' : String} :
    (s.enter name k).lookup name' = if name' = name then some k else s.lookup name' := by
  rw [lookup, enter, List.lookup_cons]
  by_cases h : name' = name
  · rw [if_pos h, beq_iff_eq.mpr h]
  · rw [if_neg h, beq_eq_false_iff_ne.mpr h, lookup]

end Enter

section Define

variable {s s' : Schema} {name : String} {parent k : KindId} {members layout : List MemberDecl}
  {valued : Bool}

theorem define_of_lookup (h : (s.lookup name).isSome = true) :
    define name parent members valued s = .error (.duplicateKind name) s := by
  change (ite _ (throw _) (dite _ _ _) : EStateM SchemaError Schema KindId) s = _
  rw [if_pos h]
  rfl

theorem define_of_size_le (hfree : s.lookup name = none) (h : s.size ≤ parent) :
    define name parent members valued s = .error (.unknownKind s!"#{parent}") s := by
  change (ite _ (throw _) (dite _ _ _) : EStateM SchemaError Schema KindId) s = _
  rw [if_neg (by simp [hfree]), dif_neg (Nat.not_lt.mpr h)]
  rfl

theorem define_of_extendLayout_error {e : SchemaError} (hfree : s.lookup name = none)
    (hlt : parent < s.size) (h : extendLayout name (s.layout parent) members = .error e) :
    define name parent members valued s = .error e s := by
  change (ite _ (throw _) (dite _ _ _) : EStateM SchemaError Schema KindId) s = _
  rw [if_neg (by simp [hfree]), dif_pos hlt, h]
  rfl

theorem define_of_extendLayout (hfree : s.lookup name = none)
    (hparent : ∀ p ∈ some parent, p < s.size)
    (h : extendLayout name (s.layout parent) members = .ok layout) :
    define name parent members valued s = .ok s.size
      ((s.push ⟨name, some parent, layout, valued || s.isValued parent⟩ hparent).enter name
        s.size) := by
  change (ite _ (throw _) (dite _ _ _) : EStateM SchemaError Schema KindId) s = _
  rw [if_neg (by simp [hfree]), dif_pos (hparent parent rfl), h]
  rfl

/-- A definition fails before it writes anything, or it brings a new kind into both stores. -/
theorem define_cases (s : Schema) (name : String) (parent : KindId) (members : List MemberDecl)
    (valued : Bool) :
    (∃ e, define name parent members valued s = .error e s) ∨
      s.lookup name = none ∧ ∃ layout, ∃ hparent : ∀ p ∈ some parent, p < s.size,
        extendLayout name (s.layout parent) members = .ok layout ∧
          define name parent members valued s = .ok s.size
            ((s.push ⟨name, some parent, layout, valued || s.isValued parent⟩ hparent).enter name
              s.size) := by
  cases hfree : s.lookup name with
  | some _ => exact .inl ⟨_, define_of_lookup (by rw [hfree]; rfl)⟩
  | none =>
    rcases Nat.lt_or_ge parent s.size with hlt | hge
    · have hparent : ∀ p ∈ some parent, p < s.size := by simpa using hlt
      cases hlayout : extendLayout name (s.layout parent) members with
      | error e => exact .inl ⟨e, define_of_extendLayout_error hfree hlt hlayout⟩
      | ok layout =>
        exact .inr ⟨rfl, layout, hparent, rfl, define_of_extendLayout hfree hparent hlayout⟩
    · exact .inl ⟨_, define_of_size_le hfree hge⟩

theorem eq_of_define_error {e : SchemaError}
    (h : define name parent members valued s = .error e s') : s' = s := by
  obtain ⟨e', herror⟩ | ⟨-, layout, hparent, -, hok⟩ := define_cases s name parent members valued
  · exact (EStateM.Result.error.inj (h.symm.trans herror)).2
  · cases h.symm.trans hok

/-- A kind that can be defined has a name of its own and a known parent, and its layout starts with
that of its parent. -/
theorem eq_push_of_define (h : define name parent members valued s = .ok k s') :
    s.lookup name = none ∧ ∃ layout, ∃ hparent : ∀ p ∈ some parent, p < s.size,
      extendLayout name (s.layout parent) members = .ok layout ∧
        s' = (s.push ⟨name, some parent, layout, valued || s.isValued parent⟩ hparent).enter name
          s.size := by
  obtain ⟨e, herror⟩ | ⟨hfree, layout, hparent, hlayout, hok⟩ :=
    define_cases s name parent members valued
  · cases h.symm.trans herror
  · exact ⟨hfree, layout, hparent, hlayout, (EStateM.Result.ok.inj (h.symm.trans hok)).2⟩

/-- Defining a kind keeps a schema well-formed. -/
theorem WellFormed.define (hs : s.WellFormed) (h : define name parent members valued s = .ok k s') :
    s'.WellFormed := by
  obtain ⟨-, layout, hparent, hl, rfl⟩ := eq_push_of_define h
  refine ⟨?_, ?_⟩
  · have hnode : nodeKind < s.size := Nat.zero_lt_of_lt (hparent parent rfl)
    rw [layout_enter, layout_push_of_lt hnode]
    exact hs.layout_node
  · intro k p hk
    have hpk := parent_lt_of_eq hk
    rw [parent_enter] at hk
    rw [layout_enter, layout_enter]
    rcases Nat.lt_trichotomy k s.size with hlt | rfl | hgt
    · rw [parent_push_of_lt hlt] at hk
      rw [layout_push_of_lt hlt, layout_push_of_lt (Nat.lt_trans hpk hlt)]
      exact hs.layout_parent hk
    · obtain rfl : parent = p := by simpa [Schema.parent, push, size] using hk
      rw [layout_push_of_lt hpk, layout_push_size]
      exact isPrefix_of_extendLayout hl
    · rw [parent_of_size_le (by rw [size_push]; exact hgt)] at hk
      cases hk

end Define

/-- A node of a sub-kind starts with the members of the kind above it. -/
theorem WellFormed.layout_isPrefix {s : Schema} (hs : s.WellFormed) {sub sup : KindId}
    (h : s.isSubkind sub sup = true) : s.layout sup <+: s.layout sub := by
  induction sub using Nat.strongRecOn with
  | ind sub ih =>
    rw [isSubkind] at h
    split at h
    next heq =>
      subst heq
      exact List.prefix_rfl
    next =>
      split at h
      next p hp => exact (ih p (parent_lt_of_eq hp) h).trans (hs.layout_parent hp)
      next => cases h

/-- Every kind but the topmost one descends from another. -/
def Rooted (s : Schema) : Prop := ∀ k < s.size, k ≠ nodeKind → (s.parent k).isSome = true

theorem rooted_base : base.Rooted := by
  intro k hk hne
  exact (hne (Nat.lt_one_iff.mp hk)).elim

theorem Rooted.define {s s' : Schema} (hs : s.Rooted) {name : String} {parent k : KindId}
    {members : List MemberDecl} {valued : Bool}
    (h : define name parent members valued s = .ok k s') : s'.Rooted := by
  obtain ⟨-, layout, hparent, -, rfl⟩ := eq_push_of_define h
  intro k hk hne
  rw [size_enter, size_push] at hk
  rw [parent_enter]
  rcases Nat.lt_or_eq_of_le (Nat.le_of_lt_succ hk) with hlt | rfl
  · rw [parent_push_of_lt hlt]
    exact hs k hlt hne
  · simp [Schema.parent, push, size]

/-- In such a schema every kind is a sub-kind of the topmost one. -/
theorem Rooted.isSubkind_nodeKind {s : Schema} (hs : s.Rooted) {k : KindId} (hk : k < s.size) :
    s.isSubkind k nodeKind = true := by
  induction k using Nat.strongRecOn with
  | ind k ih =>
    rw [isSubkind]
    split
    next => rfl
    next hne =>
      obtain ⟨p, hp⟩ := Option.isSome_iff_exists.mp (hs k hk hne)
      have hlt := parent_lt_of_eq hp
      split
      next p' hp' =>
        obtain rfl := Option.some.inj (hp.symm.trans hp')
        exact ih p hlt (Nat.lt_trans hlt hk)
      next hnone =>
        rw [hp] at hnone
        cases hnone

end Schema

/-- Whether members are of the declared categories, one for each declaration. -/
def MembersFit {α : Type} (layout : List MemberDecl) (members : List (Member α)) : Prop :=
  members.map Member.category = layout.map MemberDecl.category

section MembersFit

variable {α β : Type} {layout : List MemberDecl} {members : List (Member α)}

theorem MembersFit.length_eq (h : MembersFit layout members) : members.length = layout.length := by
  simpa using congrArg List.length h

theorem membersFit_map {g : α → β} :
    MembersFit layout (members.map (Member.map g)) ↔ MembersFit layout members := by
  simp [MembersFit, Function.comp_def]

/-- The members that a node shares with a kind above its own. -/
theorem MembersFit.take {sup : List MemberDecl} (h : MembersFit layout members)
    (hp : sup <+: layout) : MembersFit sup (members.take sup.length) := by
  rw [MembersFit, List.map_take, h, ← List.map_take, List.prefix_iff_eq_take.mp hp]
  simp

end MembersFit

namespace Forest

variable {s : Schema}

/-- Every node has the members of its kind. -/
def WellShaped (f : Forest s) : Prop :=
  ∀ (id : NodeId) (n : Node NodeId), f.nodes[id]? = some n → MembersFit (s.layout n.kind) n.members

theorem wellShaped_empty : (empty : Forest s).WellShaped := by
  intro id n h
  simp [empty] at h

theorem WellShaped.push {f : Forest s} (hf : f.WellShaped) {n : Node NodeId}
    (hn : MembersFit (s.layout n.kind) n.members) : (f.push n).WellShaped := by
  unfold Forest.push
  split
  next =>
    intro id m hm
    rw [Array.getElem?_push] at hm
    split at hm
    next =>
      obtain rfl := Option.some.inj hm
      exact hn
    next => exact hf id m hm
  next => exact hf

theorem WellShaped.get (hs : s.WellFormed) {f : Forest s} (hf : f.WellShaped) (id : NodeId) :
    MembersFit (s.layout (f.get id).kind) (f.get id).members := by
  unfold Forest.get
  cases hn : f.nodes[id]? with
  | none => exact (congrArg (List.map MemberDecl.category) hs.layout_node).symm
  | some n => exact hf id n hn

/-- A node can be read as a node of any kind above its own. -/
theorem itemiseAs_of_membersFit (hs : s.WellFormed) {f : Forest s} {id : NodeId} {kind : KindId}
    (hfit : MembersFit (s.layout (f.kind id)) (f.get id).members)
    (h : s.isSubkind (f.kind id) kind = true) :
    f.itemiseAs id kind = some ((f.get id).members.take (s.layout kind).length) := by
  have hlen : (s.layout kind).length ≤ (f.get id).members.length := by
    rw [hfit.length_eq]
    exact (hs.layout_isPrefix h).length_le
  exact if_pos ⟨h, hlen⟩

theorem WellShaped.itemiseAs_eq (hs : s.WellFormed) {f : Forest s} (hf : f.WellShaped) {id : NodeId}
    {kind : KindId} (h : s.isSubkind (f.kind id) kind = true) :
    f.itemiseAs id kind = some ((f.get id).members.take (s.layout kind).length) :=
  itemiseAs_of_membersFit hs (hf.get hs id) h

end Forest

/-- A node of the schema: of a known kind, with a value only if the kind has one, with the members
of the kind and no child twice in one collection. -/
structure Node.Fits (s : Schema) (n : Node NodeId) : Prop where
  kind_lt : n.kind < s.size
  valued : n.value.isSome → s.isValued n.kind
  members : MembersFit (s.layout n.kind) n.members
  nodup : ∀ items, Member.collection items ∈ n.members → items.Nodup

namespace Forest

variable {s : Schema}

theorem checkMembers_eq_ok_iff {f : Forest s} {kind : String} {index : Nat}
    {layout : List MemberDecl} {members : List (Member NodeId)}
    (hlen : layout.length = members.length) :
    f.checkMembers kind index layout members = .ok () ↔
      MembersFit layout members ∧ (∀ m ∈ members, ∀ c ∈ m.children, c < f.size) ∧
        ∀ items, Member.collection items ∈ members → items.Nodup := by
  induction layout generalizing index members with
  | nil =>
    obtain rfl : members = [] := List.length_eq_zero_iff.mp hlen.symm
    simp [checkMembers, MembersFit]
  | cons d ds ih =>
    cases members with
    | nil => simp at hlen
    | cons m ms =>
      have hnodup : ¬ (m.category = .collection ∧ ¬ m.children.Nodup) ↔
          ∀ items, Member.collection items = m → items.Nodup := by
        cases m <;> simp [Member.category, Member.children]
      rw [checkMembers]
      by_cases hcat : d.category = m.category
      · rw [if_neg (not_not.mpr hcat)]
        cases hlow : m.children.find? (f.size ≤ ·) with
        | some c =>
          have hmem : c ∈ m.children := List.mem_of_find?_eq_some hlow
          have hc : f.size ≤ c := by simpa using List.find?_some hlow
          refine iff_of_false (by rintro ⟨⟩) fun h => ?_
          exact absurd (h.2.1 m (by simp) c hmem) (Nat.not_lt.mpr hc)
        | none =>
          have hlow : ∀ c ∈ m.children, c < f.size := by simpa using hlow
          dsimp only
          split
          next hdup =>
            refine iff_of_false (by rintro ⟨⟩) fun h => hnodup.mpr (fun items hm => ?_) hdup
            exact h.2.2 items (by simp [hm])
          next hdup =>
            rw [ih (by simpa using hlen)]
            simp only [MembersFit, List.map_cons, List.cons.injEq, hcat, true_and, List.mem_cons,
              or_imp, forall_and, forall_eq]
            constructor
            · rintro ⟨hfit, hms, hcols⟩
              exact ⟨hfit, ⟨hlow, hms⟩, hnodup.mp hdup, hcols⟩
            · rintro ⟨hfit, ⟨-, hms⟩, -, hcols⟩
              exact ⟨hfit, hms, hcols⟩
      · rw [if_pos hcat]
        refine iff_of_false (by rintro ⟨⟩) fun h => hcat ?_
        have := h.1
        simp only [MembersFit, List.map_cons, List.cons.injEq] at this
        exact this.1.symm

/-- What the check of a node makes sure of. -/
theorem check_eq_ok_iff {f : Forest s} {n : Node NodeId} :
    f.check n = .ok () ↔ n.Fits s ∧ ∀ c ∈ n.children, c < f.size := by
  have hchildren : (∀ c ∈ n.children, c < f.size) ↔
      ∀ m ∈ n.members, ∀ c ∈ m.children, c < f.size := by
    simp only [Node.children, List.mem_flatMap, forall_exists_index, and_imp]
    exact ⟨fun h m hm c hc => h c m hm hc, fun h c m hm hc => h m hm c hc⟩
  unfold check
  split
  next hkind => exact iff_of_false (by rintro ⟨⟩) fun h => absurd h.1.kind_lt (Nat.not_lt.mpr hkind)
  next hkind =>
    split
    next hvalue => exact iff_of_false (by rintro ⟨⟩) fun h => hvalue.2 (h.1.valued hvalue.1)
    next hvalue =>
      split
      next hlen => exact iff_of_false (by rintro ⟨⟩) fun h => hlen h.1.members.length_eq.symm
      next hlen =>
        rw [checkMembers_eq_ok_iff (not_not.mp hlen), hchildren]
        constructor
        · rintro ⟨hfit, hlow, hnodup⟩
          exact ⟨⟨Nat.lt_of_not_le hkind, by simpa using hvalue, hfit, hnodup⟩, hlow⟩
        · rintro ⟨hfits, hlow⟩
          exact ⟨hfits.members, hlow, hfits.nodup⟩

/-- Every node has passed its check. -/
def WellFormed (f : Forest s) : Prop :=
  ∀ (id : NodeId) (n : Node NodeId), f.nodes[id]? = some n → n.Fits s

theorem wellFormed_empty : (empty : Forest s).WellFormed := by
  intro id n h
  simp [empty] at h

theorem WellFormed.wellShaped {f : Forest s} (hf : f.WellFormed) : f.WellShaped :=
  fun id n hn => (hf id n hn).members

theorem WellFormed.get {f : Forest s} (hf : f.WellFormed) {id : NodeId} (hid : id < f.size) :
    (f.get id).Fits s := by
  refine hf id (f.get id) ?_
  rw [Forest.get, Array.getElem?_eq_getElem hid]
  rfl

theorem WellFormed.push {f : Forest s} (hf : f.WellFormed) {n : Node NodeId} (hn : n.Fits s) :
    (f.push n).WellFormed := by
  unfold Forest.push
  split
  next =>
    intro id m hm
    rw [Array.getElem?_push] at hm
    split at hm
    next =>
      obtain rfl := Option.some.inj hm
      exact hn
    next => exact hf id m hm
  next => exact hf

end Forest

namespace Member

variable {α β : Type}

/-- Whether stars stand in containers only, and no two of them in one collection. -/
def StarsFit (isStar : α → Bool) : Member α → Prop
  | .single child => ∀ c ∈ child, isStar c = false
  | .sequence _ => True
  | .collection items => (items.filter isStar).length ≤ 1

theorem starsFit_map {isStar : β → Bool} {g : α → β} {m : Member α} :
    (m.map g).StarsFit isStar ↔ m.StarsFit (fun a => isStar (g a)) := by
  cases m with
  | single child => simp [map, StarsFit]
  | sequence items => exact Iff.rfl
  | collection items => simp [map, StarsFit, List.filter_map, Function.comp_def]

end Member

namespace Agent

variable {α β : Type}

/-- Whether an agent may be that of a pattern of `kind`: members follow the layout, stars stand in
containers of standard patterns only, and a disjunction has a disjunct. -/
def Fits (s : Schema) (isStar : α → Bool) (kind : KindId) : Agent α → Prop
  | .standard value members =>
    (value.isSome → s.isValued kind) ∧ MembersFit (s.layout kind) members ∧
      ∀ m ∈ members, m.StarsFit isStar
  | .matchAny patterns => patterns ≠ [] ∧ ∀ c ∈ patterns, isStar c = false
  | agent => ∀ c ∈ agent.children, isStar c = false

theorem fits_map {s : Schema} {isStar : β → Bool} {kind : KindId} {g : α → β} {a : Agent α} :
    (a.map g).Fits s isStar kind ↔ a.Fits s (fun c => isStar (g c)) kind := by
  cases a with
  | standard value members => simp [map, Fits, membersFit_map, Member.starsFit_map]
  | star restriction => cases restriction <;> simp [map, Fits, children]
  | stuff terminus restriction => cases restriction <;> simp [map, Fits, children]
  | _ => simp [map, Fits, children]

theorem Fits.congr {s : Schema} {isStar isStar' : α → Bool} {kind : KindId} {a : Agent α}
    (hc : ∀ c ∈ a.children, isStar c = isStar' c) (h : a.Fits s isStar kind) :
    a.Fits s isStar' kind := by
  cases a with
  | standard value members =>
    refine ⟨h.1, h.2.1, fun m hm => ?_⟩
    have hmc : ∀ c ∈ m.children, isStar c = isStar' c := fun c hcm =>
      hc c (List.mem_flatMap_of_mem hm hcm)
    have := h.2.2 m hm
    cases m with
    | single child =>
      intro c hcm
      rw [← hmc c (by simpa [Member.children] using hcm)]
      exact this c hcm
    | sequence items => trivial
    | collection items =>
      have heq : items.filter isStar' = items.filter isStar :=
        List.filter_congr fun c hcm => (hmc c hcm).symm
      simpa [Member.StarsFit, heq] using this
  | matchAny patterns => exact ⟨h.1, fun c hcm => hc c hcm ▸ h.2 c hcm⟩
  | _ => exact fun c hcm => hc c hcm ▸ h c hcm

end Agent

namespace PatternSet

variable {s : Schema}

/-- Every pattern is of a known kind that its agent fits. -/
def WellFormed (ps : PatternSet s) : Prop :=
  ∀ (p : PatternId) (n : Pattern PatternId), ps.nodes[p]? = some n →
    n.kind < s.size ∧ n.agent.Fits s ps.isStar n.kind

theorem wellFormed_empty : (empty : PatternSet s).WellFormed := by
  intro p n h
  simp [empty] at h

theorem starsFit_of_checkMembers {ps : PatternSet s} {kind : String} {index : Nat}
    {layout : List MemberDecl} {members : List (Member PatternId)}
    (hlen : layout.length = members.length)
    (h : ps.checkMembers kind index layout members = .ok ()) :
    MembersFit layout members ∧ ∀ m ∈ members, m.StarsFit ps.isStar := by
  induction layout generalizing index members with
  | nil =>
    obtain rfl : members = [] := List.length_eq_zero_iff.mp hlen.symm
    exact ⟨rfl, by simp⟩
  | cons d ds ih =>
    cases members with
    | nil => simp at hlen
    | cons m ms =>
      unfold checkMembers at h
      split at h
      next => cases h
      next hcat =>
        split at h
        next => cases h
        next => cases h
        next m _ _ hsingle hcollection =>
          obtain ⟨hfit, hstars⟩ := ih (by simpa using hlen) h
          refine ⟨by simpa [MembersFit, eq_comm] using And.intro (not_not.mp hcat) hfit, ?_⟩
          simp only [List.mem_cons, forall_eq_or_imp]
          refine ⟨?_, hstars⟩
          cases m with
          | single child =>
            intro c hc
            obtain rfl := Option.mem_def.mp hc
            by_contra hstar
            exact hsingle (some c) c [] rfl (by simpa [Member.children] using hstar)
          | sequence items => trivial
          | collection items =>
            rcases hf : items.filter ps.isStar with _ | ⟨a, _ | ⟨b, rest⟩⟩
            · simp [Member.StarsFit, hf]
            · simp [Member.StarsFit, hf]
            · exact (hcollection items a b rest rfl hf).elim

theorem fits_of_check {ps : PatternSet s} {kind : KindId} {agent : Agent PatternId}
    (h : ps.check kind agent = .ok ()) :
    kind < s.size ∧ (∀ c ∈ agent.children, c < ps.size) ∧ agent.Fits s ps.isStar kind := by
  unfold check at h
  split at h
  next => cases h
  next hempty =>
    split at h
    next => cases h
    next hkind =>
      split at h
      next => cases h
      next hlow =>
        refine ⟨Nat.lt_of_not_le hkind, by simpa using hlow, ?_⟩
        split at h
        next value members =>
          unfold checkStandard at h
          split at h
          next => cases h
          next hvalue =>
            split at h
            next => cases h
            next hlen =>
              exact ⟨by simpa using hvalue, starsFit_of_checkMembers (not_not.mp hlen) h⟩
        next hstd =>
          split at h
          next => cases h
          next hstar =>
            have hchildren : ∀ c ∈ agent.children, ps.isStar c = false := by
              simpa using hstar
            cases agent with
            | standard value members => exact (hstd value members rfl).elim
            | matchAny patterns => exact ⟨fun hp => hempty (by rw [hp]), hchildren⟩
            | _ => exact hchildren

theorem get_push_of_lt {ps : PatternSet s} {n : Pattern PatternId} {p : PatternId}
    (hp : p < ps.size) : (ps.push n).get p = ps.get p := by
  unfold push
  split
  next =>
    have hne : p ≠ ps.nodes.size := Nat.ne_of_lt hp
    simp [get, Array.getElem?_push, hne]
  next => rfl

theorem isStar_push_of_lt {ps : PatternSet s} {n : Pattern PatternId} {p : PatternId}
    (hp : p < ps.size) : (ps.push n).isStar p = ps.isStar p := by
  rw [isStar, get_push_of_lt hp]
  rfl

theorem pattern_eq_of_get_eq {ps ps' : PatternSet s} {p : PatternId} (h : ps'.get p = ps.get p) :
    ps'.pattern p = ps.pattern p := by
  unfold pattern
  simp only [h]

/-- Appending a pattern keeps a pattern set well-formed. -/
theorem WellFormed.insert {ps ps' : PatternSet s} (hps : ps.WellFormed) {kind : KindId}
    {agent : Agent PatternId} (h : ps.insert kind agent = .ok ps') : ps'.WellFormed := by
  unfold PatternSet.insert at h
  split at h
  next => cases h
  next hcheck =>
    obtain rfl := Except.ok.inj h
    obtain ⟨hkind, hlow, hfits⟩ := fits_of_check hcheck
    intro p n hn
    rw [push, dif_pos hlow] at hn
    rw [Array.getElem?_push] at hn
    split at hn
    next =>
      obtain rfl := Option.some.inj hn
      exact ⟨hkind, hfits.congr fun c hc => (isStar_push_of_lt (hlow c hc)).symm⟩
    next =>
      obtain ⟨hk, hf⟩ := hps p n hn
      have hp : p < ps.size := (Array.getElem?_eq_some_iff.mp hn).1
      exact ⟨hk, hf.congr fun c hc =>
        (isStar_push_of_lt (Nat.lt_trans (ps.child_lt p n hn c hc) hp)).symm⟩

theorem eq_push_of_draft {ps ps' : PatternSet s} {kind : KindId} {agent : Agent PatternId}
    {p : PatternId} (h : Draft.pattern kind agent ps = .ok p ps') :
    ps.insert kind agent = .ok ps' ∧ p = ps.size ∧ ps' = ps.push ⟨kind, agent⟩ ∧
      ∀ c ∈ agent.children, c < ps.size := by
  unfold Draft.pattern at h
  split at h
  next => cases h
  next ps₁ hi =>
    obtain ⟨rfl, rfl⟩ : ps.size = p ∧ ps₁ = ps' := by simpa using h
    refine ⟨hi, rfl, ?_⟩
    unfold PatternSet.insert at hi
    split at hi
    next => cases hi
    next hcheck => exact ⟨(Except.ok.inj hi).symm, (fits_of_check hcheck).2.1⟩

theorem WellFormed.draft_pattern {ps ps' : PatternSet s} (hps : ps.WellFormed) {kind : KindId}
    {agent : Agent PatternId} {p : PatternId} (h : Draft.pattern kind agent ps = .ok p ps') :
    ps'.WellFormed ∧ p = ps.size ∧ ps' = ps.push ⟨kind, agent⟩ ∧
      ∀ c ∈ agent.children, c < ps.size := by
  obtain ⟨hinsert, hpush⟩ := eq_push_of_draft h
  exact ⟨hps.insert hinsert, hpush⟩

theorem get_push_size {ps : PatternSet s} {n : Pattern PatternId}
    (h : ∀ c ∈ n.agent.children, c < ps.size) : (ps.push n).get ps.size = n := by
  rw [push, dif_pos h]
  simp [get, size]

theorem size_push {ps : PatternSet s} {n : Pattern PatternId}
    (h : ∀ c ∈ n.agent.children, c < ps.size) : (ps.push n).size = ps.size + 1 := by
  rw [push, dif_pos h]
  exact Array.size_push ..

theorem wrap_run (search : PatternId) (replace : Option PatternId) (mode : Mode)
    (ps : PatternSet s) :
    (Draft.wrap search replace mode).run ps =
      match Draft.pattern Schema.nodeKind (.overlay search (replace.getD search)) ps with
      | .ok overlay ps₁ =>
        match mode with
        | .compare => .ok overlay ps₁
        | .search => Draft.pattern Schema.nodeKind (.stuff overlay none) ps₁
      | .error e ps₁ => .error e ps₁ := by
  cases hd : Draft.pattern Schema.nodeKind (.overlay search (replace.getD search)) ps with
  | ok overlay ps₁ =>
    cases mode <;>
      simp [Draft.wrap, EStateM.run, bind, EStateM.bind, hd, pure, EStateM.pure]
  | error e ps₁ => simp [Draft.wrap, EStateM.run, bind, EStateM.bind, hd]

/-- Wrapping a rule puts an overlay of known patterns on top of the others, and above that, if the
rule searches, a pattern that looks for it everywhere.  It keeps the patterns well-formed. -/
theorem WellFormed.wrap_eq {ps ps' : PatternSet s} (hps : ps.WellFormed) {search : PatternId}
    {replace : Option PatternId} {mode : Mode} {root : PatternId}
    (h : (Draft.wrap search replace mode).run ps = .ok root ps') :
    ps'.WellFormed ∧ search < ps.size ∧ replace.getD search < ps.size ∧
      match mode with
      | .compare => root = ps.size ∧
          ps' = ps.push ⟨Schema.nodeKind, .overlay search (replace.getD search)⟩
      | .search => root = ps.size + 1 ∧
          ps' = (ps.push ⟨Schema.nodeKind, .overlay search (replace.getD search)⟩).push
            ⟨Schema.nodeKind, .stuff ps.size none⟩ := by
  rw [wrap_run] at h
  split at h
  next overlay ps₁ hd =>
    obtain ⟨hps₁, rfl, rfl, hlow⟩ := hps.draft_pattern hd
    have hsearch : search < ps.size := hlow _ (by simp [Agent.children])
    have habove : replace.getD search < ps.size := hlow _ (by simp [Agent.children])
    cases mode with
    | compare =>
      obtain ⟨rfl, rfl⟩ : ps.size = root ∧ _ = ps' := by simpa using h
      exact ⟨hps₁, hsearch, habove, rfl, rfl⟩
    | search =>
      obtain ⟨hps₂, rfl, rfl, -⟩ := hps₁.draft_pattern h
      exact ⟨hps₂, hsearch, habove, size_push hlow, rfl⟩
  next => cases h

/-- The patterns of a wrapped rule, one by one. -/
theorem WellFormed.get_wrap {ps ps' : PatternSet s} (hps : ps.WellFormed) {search : PatternId}
    {replace : Option PatternId} {mode : Mode} {root : PatternId}
    (h : (Draft.wrap search replace mode).run ps = .ok root ps') :
    (∀ p < ps.size, ps'.get p = ps.get p) ∧
      ps'.get ps.size = ⟨Schema.nodeKind, .overlay search (replace.getD search)⟩ ∧
      (root = ps.size ∨
        root = ps.size + 1 ∧ ps'.get (ps.size + 1) = ⟨Schema.nodeKind, .stuff ps.size none⟩) := by
  obtain ⟨-, hsearch, habove, hroot⟩ := hps.wrap_eq h
  have hlow : ∀ c ∈ (Agent.overlay search (replace.getD search)).children, c < ps.size := by
    simp [Agent.children, hsearch, habove]
  cases mode with
  | compare =>
    obtain ⟨rfl, rfl⟩ := hroot
    exact ⟨fun p hp => get_push_of_lt hp, get_push_size hlow, .inl rfl⟩
  | search =>
    obtain ⟨rfl, rfl⟩ := hroot
    have hsize : (ps.push ⟨Schema.nodeKind, .overlay search (replace.getD search)⟩).size =
        ps.size + 1 := size_push hlow
    refine ⟨fun p hp => ?_, ?_, .inr ⟨rfl, ?_⟩⟩
    · rw [get_push_of_lt (hsize ▸ Nat.lt_succ_of_lt hp), get_push_of_lt hp]
    · rw [get_push_of_lt (hsize ▸ Nat.lt_succ_self _), get_push_size hlow]
    · rw [← hsize]
      exact get_push_size (by simp [Agent.children, hsize])

/-- The root of a rule is no star. -/
theorem WellFormed.wrap {ps ps' : PatternSet s} (hps : ps.WellFormed) {search : PatternId}
    {replace : Option PatternId} {mode : Mode} {root : PatternId}
    (h : (Draft.wrap search replace mode).run ps = .ok root ps') :
    ps'.WellFormed ∧ ps'.isStar root = false := by
  obtain ⟨-, hoverlay, rfl | ⟨rfl, hstuff⟩⟩ := hps.get_wrap h
  · exact ⟨(hps.wrap_eq h).1, by rw [isStar, hoverlay]; rfl⟩
  · exact ⟨(hps.wrap_eq h).1, by rw [isStar, hstuff]; rfl⟩

/-- The agent of a pattern, with the bound on its references, fits its kind. -/
theorem WellFormed.fits (hs : s.WellFormed) {ps : PatternSet s} (hps : ps.WellFormed)
    (p : PatternId) :
    (ps.pattern p).agent.Fits s (fun q => ps.isStar q.val) (ps.pattern p).kind := by
  rw [← Agent.fits_map (g := Fin.val), pattern, Agent.map_val_below]
  change (ps.get p).agent.Fits s ps.isStar (ps.get p).kind
  unfold get
  cases hn : ps.nodes[p]? with
  | none =>
    exact ⟨by simp, (congrArg (List.map MemberDecl.category) hs.layout_node).symm, by simp⟩
  | some n => exact (hps p n hn).2

theorem isStar_pattern {ps : PatternSet s} (p : PatternId) :
    (ps.pattern p).agent.isStar = ps.isStar p := by
  rw [isStar, ← Agent.map_val_below p (ps.get p).agent fun _ hc => ps.child_lt_of_mem hc]
  change _ = Agent.isStar (Agent.map Fin.val (ps.pattern p).agent)
  cases (ps.pattern p).agent <;> rfl

end PatternSet

end Espalier
