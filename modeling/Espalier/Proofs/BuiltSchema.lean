import Espalier.Proofs.Twins

/-!
# Schemas built kind by kind

A schema comes from the one that knows `Node` only, by one definition after another.  Every
definition makes sure of what the kinds need: different names, a layout that starts with that of the
parent, and a value wherever the parent has one.
-/

namespace Espalier

namespace Schema

variable {s s' : Schema}

/-! ## Names -/

/-- The two stores are in step: the kind that is found under a name is of that name, and every kind
is found under its name. -/
structure Indexed (s : Schema) : Prop where
  name_of_lookup : ∀ {name : String} {k : KindId}, s.lookup name = some k →
    k < s.size ∧ s.name k = name
  lookup_name : ∀ {k : KindId}, k < s.size → s.lookup (s.name k) = some k

theorem lookup_base {name : String} :
    base.lookup name = if name = "Node" then some nodeKind else none := by
  rw [lookup, base, List.lookup_cons]
  by_cases h : name = "Node"
  · rw [if_pos h, beq_iff_eq.mpr h]
  · rw [if_neg h, beq_eq_false_iff_ne.mpr h, List.lookup_nil]

theorem indexed_base : base.Indexed where
  name_of_lookup h := by
    rw [lookup_base] at h
    split at h
    next heq =>
      obtain rfl := Option.some.inj h
      exact ⟨Nat.one_pos, heq.symm⟩
    next => cases h
  lookup_name hk := by
    obtain rfl := Nat.lt_one_iff.mp hk
    decide

theorem name_push_of_lt {d : Kind} {h : ∀ p ∈ d.parent, p < s.size} {k : KindId} (hk : k < s.size) :
    (s.push d h).name k = s.name k := by
  simp [Schema.name, push, Array.getElem?_push, Nat.ne_of_lt (show k < s.kinds.size from hk)]

theorem name_push_size {d : Kind} {h : ∀ p ∈ d.parent, p < s.size} :
    (s.push d h).name s.size = d.name := by
  simp [Schema.name, push, size]

/-- What is found under a name after a definition. -/
theorem lookup_of_define {name : String} {parent k : KindId} {members : List MemberDecl}
    {valued : Bool} (h : define name parent members valued s = .ok k s') (name' : String) :
    s'.lookup name' = if name' = name then some s.size else s.lookup name' := by
  obtain ⟨-, layout, hparent, -, rfl⟩ := eq_push_of_define h
  exact lookup_enter

/-- A definition writes to both stores, and under a name that was free. -/
theorem Indexed.define (hs : s.Indexed) {name : String} {parent k : KindId}
    {members : List MemberDecl} {valued : Bool}
    (h : define name parent members valued s = .ok k s') : s'.Indexed := by
  have hlookup := lookup_of_define h
  obtain ⟨hfree, layout, hparent, -, rfl⟩ := eq_push_of_define h
  refine ⟨fun {name' k} hk => ?_, fun {k} hk => ?_⟩
  · rw [hlookup] at hk
    rw [size_enter, size_push, name_enter]
    split at hk
    next heq =>
      obtain rfl := Option.some.inj hk
      exact ⟨Nat.lt_succ_self _, name_push_size.trans heq.symm⟩
    next =>
      obtain ⟨hlt, hname⟩ := hs.name_of_lookup hk
      exact ⟨Nat.lt_succ_of_lt hlt, (name_push_of_lt hlt).trans hname⟩
  · rw [size_enter, size_push] at hk
    rw [hlookup, name_enter]
    rcases Nat.lt_or_eq_of_le (Nat.le_of_lt_succ hk) with hlt | rfl
    · have hne : s.name k ≠ name := by
        rintro rfl
        cases hfree.symm.trans (hs.lookup_name hlt)
      rw [name_push_of_lt hlt, if_neg hne]
      exact hs.lookup_name hlt
    · rw [name_push_size, if_pos rfl]

theorem Indexed.isSome_lookup_iff (hs : s.Indexed) {name : String} :
    (s.lookup name).isSome = true ↔ name ∈ s.names := by
  rw [Option.isSome_iff_exists, List.mem_iff_getElem?]
  constructor
  · rintro ⟨k, hk⟩
    obtain ⟨hlt, rfl⟩ := hs.name_of_lookup hk
    exact ⟨k, getElem?_names hlt⟩
  · rintro ⟨k, hk⟩
    have hlt : k < s.size := s.length_names ▸ (List.getElem?_eq_some_iff.mp hk).1
    obtain rfl := Option.some.inj ((getElem?_names hlt).symm.trans hk)
    exact ⟨k, hs.lookup_name hlt⟩

theorem distinct_base : base.Distinct where
  names := List.nodup_singleton _
  members k := by
    rw [layout]
    split
    next d hd =>
      obtain ⟨hk, rfl⟩ := Array.getElem?_eq_some_iff.mp hd
      simp [base]
    next => exact .nil

theorem names_push {d : Kind} {h : ∀ p ∈ d.parent, p < s.size} :
    (s.push d h).names = s.names ++ [d.name] := by
  simp [names, push]

theorem nodup_of_extendLayout {kind : String} {layout members layout' : List MemberDecl}
    (hnodup : (layout.map MemberDecl.name).Nodup)
    (h : extendLayout kind layout members = .ok layout') : (layout'.map MemberDecl.name).Nodup := by
  induction members generalizing layout with
  | nil =>
    obtain rfl := Except.ok.inj h
    exact hnodup
  | cons m ms ih =>
    rw [extendLayout] at h
    split at h
    next => cases h
    next hany =>
      refine ih ?_ h
      have hfree : ∀ d ∈ layout, d.name ≠ m.name := by simpa using hany
      rw [List.map_append, List.nodup_append]
      refine ⟨hnodup, List.nodup_singleton _, ?_⟩
      intro name hname name' hname'
      obtain ⟨d, hd, rfl⟩ := List.mem_map.mp hname
      obtain rfl := List.mem_singleton.mp hname'
      exact hfree d hd

/-- Defining a kind makes sure that its name and those of its members are free. -/
theorem Distinct.define (hs : s.Distinct) (hindexed : s.Indexed) {name : String} {parent k : KindId}
    {members : List MemberDecl} {valued : Bool}
    (h : define name parent members valued s = .ok k s') : s'.Distinct := by
  obtain ⟨hfree, layout, hparent, hl, rfl⟩ := eq_push_of_define h
  refine ⟨?_, ?_⟩
  · rw [names_enter, names_push, List.nodup_append]
    refine ⟨hs.names, List.nodup_singleton _, ?_⟩
    rintro other hother name' hname' rfl
    obtain rfl := List.mem_singleton.mp hname'
    rw [← hindexed.isSome_lookup_iff, hfree] at hother
    cases hother
  · intro k
    rw [layout_enter]
    rcases Nat.lt_trichotomy k s.size with hlt | rfl | hgt
    · rw [layout_push_of_lt hlt]
      exact hs.members k
    · rw [layout_push_size]
      exact nodup_of_extendLayout (hs.members parent) hl
    · rw [layout_of_size_le (by rw [size_push]; exact hgt)]
      exact .nil

/-! ## Values -/

theorem isValued_push_of_lt {d : Kind} {h : ∀ p ∈ d.parent, p < s.size} {k : KindId}
    (hk : k < s.size) : (s.push d h).isValued k = s.isValued k := by
  simp [isValued, push, Array.getElem?_push, Nat.ne_of_lt (show k < s.kinds.size from hk)]

/-- A kind below one with values has values, too. -/
def PassesValues (s : Schema) : Prop :=
  ∀ {k p : KindId}, s.parent k = some p → s.isValued p = true → s.isValued k = true

theorem PassesValues.define (hs : s.PassesValues) {name : String} {parent k : KindId}
    {members : List MemberDecl} {valued : Bool}
    (h : define name parent members valued s = .ok k s') : s'.PassesValues := by
  obtain ⟨-, layout, hparent, -, rfl⟩ := eq_push_of_define h
  intro k p hk hp
  have hpk := parent_lt_of_eq hk
  rw [parent_enter] at hk
  rw [isValued_enter] at hp ⊢
  rcases Nat.lt_trichotomy k s.size with hlt | rfl | hgt
  · rw [parent_push_of_lt hlt] at hk
    rw [isValued_push_of_lt (Nat.lt_trans hpk hlt)] at hp
    rw [isValued_push_of_lt hlt]
    exact hs hk hp
  · obtain rfl : parent = p := by simpa [Schema.parent, push, size] using hk
    rw [isValued_push_of_lt hpk] at hp
    have hvalued : (valued || s.isValued parent) = true := by rw [hp, Bool.or_true]
    simpa [isValued, push, size] using hvalued
  · rw [parent_of_size_le (by rw [size_push]; exact hgt)] at hk
    cases hk

/-! ## One definition after another -/

/-- The schema has been built from the base by defining kinds. -/
inductive Built : Schema → Prop where
  | base : Built base
  | define {s s' : Schema} {name : String} {parent k : KindId} {members : List MemberDecl}
      {valued : Bool} (h : Built s) (hdef : define name parent members valued s = .ok k s') :
      Built s'

namespace Built

theorem wellFormed (hs : s.Built) : s.WellFormed := by
  induction hs with
  | base => exact wellFormed_base
  | define _ hdef ih => exact ih.define hdef

theorem indexed (hs : s.Built) : s.Indexed := by
  induction hs with
  | base => exact indexed_base
  | define _ hdef ih => exact ih.define hdef

theorem distinct (hs : s.Built) : s.Distinct := by
  induction hs with
  | base => exact distinct_base
  | define hs hdef ih => exact ih.define hs.indexed hdef

theorem size_pos (hs : s.Built) : 0 < s.size := by
  induction hs with
  | base => exact Nat.one_pos
  | define _ hdef ih =>
    obtain ⟨-, layout, hparent, -, rfl⟩ := eq_push_of_define hdef
    rw [size_enter, size_push]
    exact Nat.succ_pos _

theorem passesValues (hs : s.Built) : s.PassesValues := by
  induction hs with
  | base =>
    intro k p hk _
    obtain ⟨d, hd, hparent⟩ := Option.bind_eq_some_iff.mp hk
    obtain ⟨hlt, rfl⟩ := Array.getElem?_eq_some_iff.mp hd
    simp [Schema.base] at hparent
  | define _ hdef ih => exact ih.define hdef

/-- A node of a sub-kind may carry whatever value one of the kind above may. -/
theorem isValued_of_isSubkind (hs : s.Built) {sub sup : KindId} (h : s.isSubkind sub sup = true)
    (hsup : s.isValued sup = true) : s.isValued sub = true := by
  induction sub using Nat.strongRecOn with
  | ind sub ih =>
    rw [isSubkind] at h
    split at h
    next heq => exact heq ▸ hsup
    next =>
      split at h
      next p hp => exact hs.passesValues hp (ih p (parent_lt_of_eq hp) h)
      next => cases h

end Built

end Schema

end Espalier
