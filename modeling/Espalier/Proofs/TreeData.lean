import Espalier.Proofs.RoundTrip
import Espalier.Tree.Json

/-!
# Trees written as data and read again

A tree is written as a record and its members as trees, lists of trees or nulls, which are told
apart when they are read again.  So a tree comes back as it was, and whatever is read has its
members in the order of their names.
-/

namespace Espalier

/-! ## What is written is read as it was -/

theorem Value.ofData?_toData (v : Value) : Value.ofData? v.toData = some v := by
  cases v with
  | bool b => rfl
  | int i =>
    rw [toData, ofData?, if_pos ⟨i.minValue_le_toInt, i.toInt_le⟩, Int64.ofInt_toInt]
  | str s => rfl

/-- No value is written as a null, so none is taken for a missing one. -/
theorem Value.optional?_toData (v : Value) : Value.optional? (some v.toData) = some (some v) := by
  have hread := Value.ofData?_toData v
  cases v <;> simp_all [optional?, toData]

/-- A name below all others goes to the front. -/
theorem insertMember_of_lt {α : Type} {name : String} {b : α} {ms : List (String × α)}
    (h : ∀ k ∈ ms.map Prod.fst, name < k) : insertMember name b ms = (name, b) :: ms := by
  cases ms with
  | nil => rfl
  | cons m ms => rw [insertMember, if_pos (h m.1 (by simp))]

/-- One more field of a tree: the fields of the three known names are collected, and any other is
passed over. -/
theorem Tree.partsOf?_cons (name : String) (d : Data) (fields : List (String × Data)) :
    Tree.partsOf? ((name, d) :: fields) =
      match Tree.partsOf? fields with
      | none => none
      | some parts =>
        if name = "kind" then
          match d with
          | .text kind => some { parts with kinds := kind :: parts.kinds }
          | _ => none
        else if name = "value" then
          (Value.optional? (some d)).map fun v => { parts with values := v :: parts.values }
        else if name = "members" then
          match d with
          | .record ms =>
            (Tree.membersOf? ms).map fun ms => { parts with members := ms :: parts.members }
          | _ => none
        else some parts := by
  cases d <;> rfl

theorem Tree.toData_node (kind : String) (value : Option Value) (members : List (String × Branch)) :
    (Tree.node kind value members).toData =
      .record (("kind", .text kind) :: value.toList.map (fun v => ("value", v.toData)) ++
        if members = [] then [] else [("members", .record (Tree.fieldsOf members))]) := by
  cases members <;> rfl

theorem Tree.allOf?_listOf {ts : List Tree} (h : ∀ t ∈ ts, Tree.ofData? t.toData = some t) :
    Tree.allOf? (Tree.listOf ts) = some ts := by
  induction ts with
  | nil => rfl
  | cons t ts ih =>
    rw [List.forall_mem_cons] at h
    rw [Tree.listOf, Tree.allOf?, h.1, ih h.2]
    rfl

/-- A branch is read as it was if the trees on it are: only a list of trees is written as a list,
and only a single tree as a record. -/
theorem Branch.ofData?_toData {b : Branch} (h : ∀ t ∈ b.trees, Tree.ofData? t.toData = some t) :
    Branch.ofData? b.toData = some b := by
  cases b with
  | absent => rfl
  | one t =>
    have ht := h t (by simp [trees])
    obtain ⟨kind, value, members⟩ := t
    rw [Tree.toData_node, Tree.ofData?] at ht
    rw [toData, Tree.toData_node, Branch.ofData?, ht]
    rfl
  | many ts =>
    have hall : Tree.allOf? (Tree.listOf ts) = some ts := Tree.allOf?_listOf h
    rw [toData, Branch.ofData?, hall]

/-- Members in the order of their names are read in that order. -/
theorem Tree.membersOf?_fieldsOf {ms : List (String × Branch)} (hnames : NamesSorted ms)
    (h : ∀ m ∈ ms, ∀ t ∈ m.2.trees, Tree.ofData? t.toData = some t) :
    Tree.membersOf? (Tree.fieldsOf ms) = some ms := by
  induction ms with
  | nil => rfl
  | cons m ms ih =>
    obtain ⟨name, b⟩ := m
    obtain ⟨hbelow, hrest⟩ := List.pairwise_cons.mp hnames
    rw [List.forall_mem_cons] at h
    rw [Tree.fieldsOf, Tree.membersOf?, Branch.ofData?_toData h.1, ih hrest h.2]
    simp [lookup_eq_none_of_lt hbelow, insertMember_of_lt hbelow]

theorem Tree.Sorted.ofData?_toData {t : Tree} (h : t.Sorted) : Tree.ofData? t.toData = some t := by
  induction h with
  | @node kind value members hnames _ ih =>
    have hmembers := Tree.membersOf?_fieldsOf hnames ih
    have hnil : Tree.partsOf? [] = some ⟨[], [], []⟩ := rfl
    rw [toData_node, Tree.ofData?]
    -- The fields are told apart by their names, and one that is not written is missing.
    cases value <;> by_cases hempty : members = [] <;>
      simp [Tree.partsOf?_cons, hnil, TreeParts.tree?, Value.optional?_toData, hempty, hmembers]

/-! ## What is read is sorted -/

/-- Members in the order of their names, with sorted trees. -/
def MembersSorted (ms : List (String × Branch)) : Prop :=
  NamesSorted ms ∧ ∀ m ∈ ms, ∀ t ∈ m.2.trees, t.Sorted

theorem membersSorted_nil : MembersSorted [] := ⟨.nil, List.forall_mem_nil _⟩

theorem MembersSorted.insert {ms : List (String × Branch)} (h : MembersSorted ms) {name : String}
    {b : Branch} (hb : ∀ t ∈ b.trees, t.Sorted) : MembersSorted (insertMember name b ms) := by
  refine ⟨sorted_insertMember h.1, fun m hm => ?_⟩
  rcases mem_insertMember hm with rfl | hm
  · exact hb
  · exact h.2 m hm

theorem MembersSorted.node {ms : List (String × Branch)} (h : MembersSorted ms) (kind : String)
    (value : Option Value) : Tree.Sorted (.node kind value ms) := .node h.1 h.2

theorem TreeParts.sorted_of_tree? {parts : TreeParts} {t : Tree} (ht : parts.tree? = some t)
    (h : ∀ ms ∈ parts.members, MembersSorted ms) : t.Sorted := by
  unfold tree? at ht
  split at ht
  · obtain rfl := Option.some.inj ht
    exact membersSorted_nil.node _ _
  · obtain rfl := Option.some.inj ht
    exact membersSorted_nil.node _ _
  · obtain rfl := Option.some.inj ht
    exact (h _ (by simp)).node _ _
  · obtain rfl := Option.some.inj ht
    exact (h _ (by simp)).node _ _
  · cases ht

/-- The members that are collected come from one of the fields. -/
theorem Tree.members_of_partsOf?_cons {name : String} {d : Data} {fields : List (String × Data)}
    {parts : TreeParts} (h : Tree.partsOf? ((name, d) :: fields) = some parts) :
    ∃ rest, Tree.partsOf? fields = some rest ∧ (parts.members = rest.members ∨
      ∃ ms read, d = .record ms ∧ Tree.membersOf? ms = some read ∧
        parts.members = read :: rest.members) := by
  rw [Tree.partsOf?_cons] at h
  split at h
  next => cases h
  next rest hrest =>
    refine ⟨rest, hrest, ?_⟩
    split at h
    next =>
      split at h
      next =>
        obtain rfl := Option.some.inj h
        exact .inl rfl
      next => cases h
    next =>
      split at h
      next =>
        obtain ⟨v, -, rfl⟩ := Option.map_eq_some_iff.mp h
        exact .inl rfl
      next =>
        split at h
        next =>
          split at h
          next ms =>
            obtain ⟨read, hread, rfl⟩ := Option.map_eq_some_iff.mp h
            exact .inr ⟨ms, read, rfl, hread, rfl⟩
          next => cases h
        next =>
          obtain rfl := Option.some.inj h
          exact .inl rfl

theorem Tree.eq_of_ofList? {items : List Data} {t : Tree} (h : Tree.ofList? items = some t) :
    (∃ kind value, t = .node kind value []) ∨
      ∃ kind value v fields ms, items = [.text kind, value, .record fields] ∧
        Tree.membersOf? fields = some ms ∧ t = .node kind v ms := by
  rw [Tree.ofList?.eq_def] at h
  split at h
  next kind => exact .inl ⟨kind, none, (Option.some.inj h).symm⟩
  next kind value =>
    obtain ⟨v, -, rfl⟩ := Option.map_eq_some_iff.mp h
    exact .inl ⟨kind, v, rfl⟩
  next kind value fields =>
    split at h
    next v ms _ hms => exact .inr ⟨kind, value, v, fields, ms, rfl, hms, (Option.some.inj h).symm⟩
    next => cases h
  next => cases h

mutual

theorem Tree.sorted_of_ofData? : ∀ (d : Data) {t : Tree}, Tree.ofData? d = some t → t.Sorted
  | .record fields, t, h => by
    rw [Tree.ofData?] at h
    obtain ⟨parts, hparts, ht⟩ := Option.bind_eq_some_iff.mp h
    exact TreeParts.sorted_of_tree? ht (membersSorted_of_partsOf? fields hparts)
  | .list items, t, h => by
    rw [Tree.ofData?] at h
    exact Tree.sorted_of_ofList? items h
  | .null, _, h | .bool _, _, h | .int _, _, h | .real, _, h | .date, _, h | .text _, _, h
  | .malformed, _, h => by cases h

theorem membersSorted_of_partsOf? : ∀ (fields : List (String × Data)) {parts : TreeParts},
    Tree.partsOf? fields = some parts → ∀ ms ∈ parts.members, MembersSorted ms
  | [], parts, h => by
    obtain rfl := Option.some.inj h
    exact List.forall_mem_nil _
  | (name, d) :: fields, parts, h => by
    obtain ⟨rest, hrest, heq | ⟨ms, read, rfl, hread, heq⟩⟩ := Tree.members_of_partsOf?_cons h
    · rw [heq]
      exact membersSorted_of_partsOf? fields hrest
    · rw [heq, List.forall_mem_cons]
      exact ⟨membersSorted_of_membersOf? ms hread, membersSorted_of_partsOf? fields hrest⟩

theorem Tree.sorted_of_ofList? :
    ∀ (items : List Data) {t : Tree}, Tree.ofList? items = some t → t.Sorted
  | items, t, h => by
    obtain ⟨kind, value, rfl⟩ | ⟨kind, value, v, fields, ms, rfl, hms, rfl⟩ := Tree.eq_of_ofList? h
    · exact membersSorted_nil.node _ _
    · exact (membersSorted_of_membersOf? fields hms).node _ _

theorem membersSorted_of_membersOf? :
    ∀ (fields : List (String × Data)) {ms : List (String × Branch)},
    Tree.membersOf? fields = some ms → MembersSorted ms
  | [], ms, h => by
    obtain rfl := Option.some.inj h
    exact membersSorted_nil
  | (name, d) :: fields, ms, h => by
    rw [Tree.membersOf?] at h
    split at h
    next b rest hb hrest =>
      obtain rfl := Option.some.inj h
      have hsorted := membersSorted_of_membersOf? fields hrest
      split
      · exact hsorted
      · exact hsorted.insert (Branch.sorted_of_ofData? d hb)
    next => cases h

theorem Branch.sorted_of_ofData? : ∀ (d : Data) {b : Branch},
    Branch.ofData? d = some b → ∀ t ∈ b.trees, t.Sorted
  | .null, b, h => by
    obtain rfl := Option.some.inj h
    exact List.forall_mem_nil _
  | .list items, b, h => by
    rw [Branch.ofData?] at h
    split at h
    next ts hts =>
      obtain rfl := Option.some.inj h
      exact Tree.sorted_of_allOf? items hts
    next =>
      obtain ⟨t, ht, rfl⟩ := Option.map_eq_some_iff.mp h
      exact List.forall_mem_singleton.mpr (Tree.sorted_of_ofList? items ht)
  | .record fields, b, h => by
    rw [Branch.ofData?] at h
    obtain ⟨t, ht, rfl⟩ := Option.map_eq_some_iff.mp h
    obtain ⟨parts, hparts, ht⟩ := Option.bind_eq_some_iff.mp ht
    exact List.forall_mem_singleton.mpr
      (TreeParts.sorted_of_tree? ht (membersSorted_of_partsOf? fields hparts))
  | .bool _, _, h | .int _, _, h | .real, _, h | .date, _, h | .text _, _, h
  | .malformed, _, h => by
    cases h

theorem Tree.sorted_of_allOf? : ∀ (ds : List Data) {ts : List Tree},
    Tree.allOf? ds = some ts → ∀ t ∈ ts, t.Sorted
  | [], ts, h => by
    obtain rfl := Option.some.inj h
    exact List.forall_mem_nil _
  | d :: ds, ts, h => by
    rw [Tree.allOf?] at h
    split at h
    next t ht =>
      obtain ⟨rest, hrest, rfl⟩ := Option.map_eq_some_iff.mp h
      rw [List.forall_mem_cons]
      exact ⟨Tree.sorted_of_ofData? d ht, Tree.sorted_of_allOf? ds hrest⟩
    next => cases h

end

/-- A tree that is written as data is read again as it was, exactly if its members are in the order
of their names. -/
theorem Tree.ofData_toData_iff_sorted (t : Tree) : Tree.ofData? t.toData = some t ↔ t.Sorted :=
  ⟨Tree.sorted_of_ofData? t.toData, Tree.Sorted.ofData?_toData⟩

end Espalier
