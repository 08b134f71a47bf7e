import Espalier.Proofs.Compiling
import Mathlib.Data.Set.Finite.Basic
import Mathlib.Order.WellFounded

/-!
# Kinds in any order

The kinds of a rule file are defined in rounds.  A round defines every kind whose parent is there
and puts off the others, and there are rounds as long as they get on.  When one does not, the parent
of every kind that is left is left, too; there are finitely many of them, so one of them is its own
ancestor.
-/

namespace Espalier

/-- In the list, `name` is given the parent `parent`. -/
def KindSpec.Descends (kinds : List KindSpec) (name parent : String) : Prop :=
  ∃ k ∈ kinds, k.name = name ∧ k.parent = some parent

/-- Some kind of the list is its own ancestor. -/
def KindSpec.Cyclic (kinds : List KindSpec) : Prop :=
  ∃ name, Relation.TransGen (KindSpec.Descends kinds) name name

namespace KindSpec

variable {kinds : List KindSpec}

theorem Cyclic.mono {kinds' : List KindSpec} (h : Cyclic kinds) (hsub : kinds ⊆ kinds') :
    Cyclic kinds' := by
  obtain ⟨name, hname⟩ := h
  have hle : KindSpec.Descends kinds ≤ KindSpec.Descends kinds' := by
    rintro a b ⟨k, hk, hdescends⟩
    exact ⟨k, hsub hk, hdescends⟩
  exact ⟨name, Relation.TransGen.mono hle name name hname⟩

/-- Kinds whose parents are all among themselves. -/
theorem cyclic_of_closed (hne : kinds ≠ [])
    (hclosed : ∀ k ∈ kinds, ∃ k' ∈ kinds, k.parent = some k'.name) : Cyclic kinds := by
  by_contra hacyclic
  let above (a b : {k // k ∈ kinds}) : Prop :=
    Relation.TransGen (Descends kinds) b.val.name a.val.name
  have : IsTrans {k // k ∈ kinds} above := ⟨fun _ _ _ hab hbc => hbc.trans hab⟩
  have : Std.Irrefl above := ⟨fun k hk => hacyclic ⟨k.val.name, hk⟩⟩
  have : Finite {k // k ∈ kinds} := kinds.finite_toSet
  have hwf : WellFounded above := Finite.wellFounded_of_trans_of_irrefl above
  obtain ⟨k₀, hk₀⟩ := List.exists_mem_of_ne_nil kinds hne
  -- A kind with no ancestor in the list has its parent there.
  obtain ⟨k, -, htop⟩ := hwf.has_min Set.univ ⟨⟨k₀, hk₀⟩, Set.mem_univ _⟩
  obtain ⟨k', hk', hparent⟩ := hclosed k.val k.property
  exact htop ⟨k', hk'⟩ (Set.mem_univ _) (.single ⟨k.val, k.property, rfl, hparent⟩)

end KindSpec

namespace Schema

variable {s s' : Schema}

def Knows (s : Schema) (name : String) : Prop := (s.lookup name).isSome = true

theorem knows_base {name : String} : base.Knows name ↔ name = "Node" := by
  rw [Knows, lookup_base]
  by_cases h : name = "Node"
  · simp [h]
  · simp [h]

theorem knows_define {name : String} {parent id : KindId} {members : List MemberDecl}
    {valued : Bool} (h : define name parent members valued s = .ok id s') {name' : String} :
    s'.Knows name' ↔ s.Knows name' ∨ name = name' := by
  rw [Knows, lookup_of_define h, Knows]
  by_cases heq : name' = name
  · simp [heq]
  · simp [heq, Ne.symm heq]

/-- A definition takes one name only. -/
theorem not_knows_of_define {k : KindSpec} {ks : List KindSpec} {parent id : KindId}
    (h : define k.name parent k.members k.valued s = .ok id s') (hk : k.name ∉ ks.map (·.name))
    (hks : ∀ k' ∈ ks, ¬ s.Knows k'.name) : ∀ k' ∈ ks, ¬ s'.Knows k'.name := by
  intro k' hk' hknows
  rcases (knows_define h).mp hknows with hold | heq
  · exact hks k' hk' hold
  · exact hk (heq ▸ List.mem_map_of_mem hk')

theorem parentOf?_eq_none_iff {k : KindSpec} :
    s.parentOf? k = none ↔ ∃ name, k.parent = some name ∧ ¬ s.Knows name := by
  unfold parentOf? Knows
  cases hk : k.parent with
  | none => simp
  | some name => simp

theorem lt_of_parentOf? (hs : s.Built) {k : KindSpec} {parent : KindId}
    (h : s.parentOf? k = some parent) : parent < s.size := by
  unfold parentOf? at h
  split at h
  next =>
    obtain rfl := Option.some.inj h
    exact hs.size_pos
  next => exact (hs.indexed.name_of_lookup h).1

theorem eq_duplicateMember_of_extendLayout {kind : String} {layout members : List MemberDecl}
    {e : SchemaError} (h : extendLayout kind layout members = .error e) :
    ∃ member, e = .duplicateMember kind member := by
  induction members generalizing layout with
  | nil => cases h
  | cons m ms ih =>
    rw [extendLayout] at h
    split at h
    next => exact ⟨m.name, (Except.error.inj h).symm⟩
    next => exact ih h

/-- A new name below a kind that is there is refused for its members only. -/
theorem eq_duplicateMember_of_define {name : String} {parent : KindId} {members : List MemberDecl}
    {valued : Bool} {e : SchemaError} (hname : ¬ s.Knows name) (hparent : parent < s.size)
    (h : define name parent members valued s = .error e s') :
    ∃ member, e = .duplicateMember name member := by
  have hfree : s.lookup name = none := Option.not_isSome_iff_eq_none.mp hname
  cases hextend : extendLayout name (s.layout parent) members with
  | error e' =>
    rw [define_of_extendLayout_error hfree hparent hextend] at h
    cases h
    exact eq_duplicateMember_of_extendLayout hextend
  | ok layout =>
    rw [define_of_extendLayout hfree (by simpa using hparent) hextend] at h
    cases h

/-! ## Rounds -/

/-- Kinds that may be defined next: under names that are new and all different, below parents that
are there or among them. -/
structure Awaits (s : Schema) (kinds : List KindSpec) : Prop where
  distinct : (kinds.map (·.name)).Nodup
  unknown : ∀ k ∈ kinds, ¬ s.Knows k.name
  parented : ∀ k ∈ kinds, ∀ name ∈ k.parent, s.Knows name ∨ name ∈ kinds.map (·.name)

/-- What a round over `kinds` comes to. -/
structure Round (s : Schema) (kinds : List KindSpec) (s' : Schema) (deferred : List KindSpec) :
    Prop where
  sublist : deferred.Sublist kinds
  knows : ∀ name, s.Knows name → s'.Knows name
  knows_or_mem : ∀ name, s'.Knows name → s.Knows name ∨ name ∈ kinds.map (·.name)
  knows_or_deferred : ∀ k ∈ kinds, k ∈ deferred ∨ s'.Knows k.name
  parentOf? : ∀ k ∈ deferred, s.parentOf? k = none
  unknown : (kinds.map (·.name)).Nodup → (∀ k ∈ kinds, ¬ s.Knows k.name) →
    ∀ k ∈ deferred, ¬ s'.Knows k.name

namespace Round

variable {s₁ : Schema} {k : KindSpec} {ks deferred : List KindSpec}

/-- The first kind is defined and a round goes over the rest. -/
theorem define {parent id : KindId} (hdef : define k.name parent k.members k.valued s = .ok id s₁)
    (h : s₁.Round ks s' deferred) : s.Round (k :: ks) s' deferred where
  sublist := h.sublist.cons k
  knows name hname := h.knows name ((knows_define hdef).mpr (.inl hname))
  knows_or_mem name hname := by
    rcases h.knows_or_mem name hname with h₁ | hmem
    · rcases (knows_define hdef).mp h₁ with h₀ | rfl
      · exact .inl h₀
      · exact .inr (by simp)
    · exact .inr (List.mem_cons_of_mem _ hmem)
  knows_or_deferred k' hk' := by
    rcases List.mem_cons.mp hk' with rfl | hk'
    · exact .inr (h.knows _ ((knows_define hdef).mpr (.inr rfl)))
    · exact h.knows_or_deferred k' hk'
  parentOf? k' hk' := by
    obtain ⟨name, hname, hunknown⟩ := parentOf?_eq_none_iff.mp (h.parentOf? k' hk')
    exact parentOf?_eq_none_iff.mpr
      ⟨name, hname, fun h₀ => hunknown ((knows_define hdef).mpr (.inl h₀))⟩
  unknown hdistinct hunknown := by
    rw [List.map_cons, List.nodup_cons] at hdistinct
    rw [List.forall_mem_cons] at hunknown
    exact h.unknown hdistinct.2 (not_knows_of_define hdef hdistinct.1 hunknown.2)

/-- The first kind is put off and a round goes over the rest. -/
theorem defer (hk : s.parentOf? k = none) (h : s.Round ks s' deferred) :
    s.Round (k :: ks) s' (k :: deferred) where
  sublist := h.sublist.cons_cons k
  knows := h.knows
  knows_or_mem name hname := (h.knows_or_mem name hname).imp_right (List.mem_cons_of_mem _)
  knows_or_deferred k' hk' := by
    rcases List.mem_cons.mp hk' with rfl | hk'
    · exact .inl List.mem_cons_self
    · exact (h.knows_or_deferred k' hk').imp_left (List.mem_cons_of_mem _)
  parentOf? := List.forall_mem_cons.mpr ⟨hk, h.parentOf?⟩
  unknown hdistinct hunknown := by
    rw [List.map_cons, List.nodup_cons] at hdistinct
    rw [List.forall_mem_cons] at hunknown
    refine List.forall_mem_cons.mpr ⟨fun h' => ?_, h.unknown hdistinct.2 hunknown.2⟩
    exact (h.knows_or_mem _ h').elim hunknown.1 hdistinct.1

/-- What is put off can still be defined. -/
theorem awaits {kinds : List KindSpec} (h : s.Round kinds s' deferred) (hawaits : s.Awaits kinds) :
    s'.Awaits deferred where
  distinct := hawaits.distinct.sublist (h.sublist.map _)
  unknown := h.unknown hawaits.distinct hawaits.unknown
  parented k hk name hname := by
    rcases hawaits.parented k (h.sublist.subset hk) name hname with hknown | hmem
    · exact .inl (h.knows name hknown)
    · obtain ⟨k', hk', rfl⟩ := List.mem_map.mp hmem
      exact (h.knows_or_deferred k' hk').symm.imp_right List.mem_map_of_mem

/-- A round that puts off all of its kinds. -/
theorem cyclic {kinds : List KindSpec} (h : s.Round kinds s' deferred) (hawaits : s.Awaits kinds)
    (hlength : kinds.length ≤ deferred.length) (hne : deferred ≠ []) : KindSpec.Cyclic kinds := by
  obtain rfl : deferred = kinds := h.sublist.eq_of_length_le hlength
  refine KindSpec.cyclic_of_closed hne fun k hk => ?_
  obtain ⟨name, hname, hunknown⟩ := parentOf?_eq_none_iff.mp (h.parentOf? k hk)
  obtain ⟨k', hk', rfl⟩ := List.mem_map.mp
    ((hawaits.parented k hk name hname).resolve_left hunknown)
  exact ⟨k', hk', hname⟩

end Round

theorem round_of_defineSome {kinds deferred : List KindSpec}
    (h : s.defineSome kinds = .ok (s', deferred)) : s.Round kinds s' deferred := by
  induction kinds generalizing s deferred with
  | nil =>
    cases h
    constructor <;> simp
  | cons k ks ih =>
    rw [defineSome] at h
    split at h
    next parent _ =>
      split at h
      next => cases h
      next id s₁ hdef => exact .define hdef (ih h)
    next hparent =>
      split at h
      next => cases h
      next s₁ rest hsome =>
        cases h
        exact .defer hparent (ih hsome)

theorem eq_duplicateMember_of_defineSome (hs : s.Built) {kinds : List KindSpec} {e : CompileError}
    (hdistinct : (kinds.map (·.name)).Nodup) (hunknown : ∀ k ∈ kinds, ¬ s.Knows k.name)
    (h : s.defineSome kinds = .error e) :
    ∃ kind member, e = .kind kind (.duplicateMember kind member) := by
  induction kinds generalizing s with
  | nil => cases h
  | cons k ks ih =>
    rw [List.map_cons, List.nodup_cons] at hdistinct
    rw [List.forall_mem_cons] at hunknown
    rw [defineSome] at h
    split at h
    next parent hparent =>
      split at h
      next e' s₁ hdef =>
        cases h
        obtain ⟨member, rfl⟩ := eq_duplicateMember_of_define hunknown.1
          (lt_of_parentOf? hs hparent) hdef
        exact ⟨k.name, member, rfl⟩
      next id s₁ hdef =>
        exact ih (.define hs hdef) hdistinct.2 (not_knows_of_define hdef hdistinct.1 hunknown.2) h
    next =>
      split at h
      next e' hsome =>
        cases h
        exact ih hs hdistinct.2 hunknown.2 hsome
      next => cases h

/-! ## All rounds -/

/-- The rounds fail for a member that is declared twice, or where the kinds run in a circle. -/
theorem error_of_defineAll (hs : s.Built) {kinds : List KindSpec} (hawaits : s.Awaits kinds)
    {e : CompileError} (h : s.defineAll kinds = .error e) :
    (∃ kind member, e = .kind kind (.duplicateMember kind member)) ∨
      (∃ kind name, e = .kind kind (.unknownKind name)) ∧ KindSpec.Cyclic kinds := by
  induction hn : kinds.length using Nat.strongRecOn generalizing s kinds with
  | ind n ih =>
    rw [defineAll] at h
    split at h
    next e' hsome =>
      cases h
      exact .inl (eq_duplicateMember_of_defineSome hs hawaits.distinct hawaits.unknown hsome)
    next => cases h
    next s₁ k deferred hsome =>
      have hround := round_of_defineSome hsome
      split at h
      next hlt =>
        obtain hdup | ⟨hunknown, hcyclic⟩ :=
          ih _ (hn ▸ hlt) (hs.defineSome hsome) (hround.awaits hawaits) h rfl
        · exact .inl hdup
        · exact .inr ⟨hunknown, hcyclic.mono hround.sublist.subset⟩
      next hstuck =>
        cases h
        exact .inr ⟨⟨_, _, rfl⟩,
          hround.cyclic hawaits (Nat.le_of_not_lt hstuck) (List.cons_ne_nil k deferred)⟩

/-- Where the rounds succeed, every kind is there in the end. -/
theorem knows_of_defineAll {kinds : List KindSpec} (h : s.defineAll kinds = .ok s') :
    (∀ name, s.Knows name → s'.Knows name) ∧ ∀ k ∈ kinds, s'.Knows k.name := by
  induction hn : kinds.length using Nat.strongRecOn generalizing s kinds with
  | ind n ih =>
    rw [defineAll] at h
    split at h
    next => cases h
    next s₁ hsome =>
      cases h
      have hround := round_of_defineSome hsome
      exact ⟨hround.knows, fun k hk => (hround.knows_or_deferred k hk).resolve_left (by simp)⟩
    next s₁ k deferred hsome =>
      have hround := round_of_defineSome hsome
      split at h
      next hlt =>
        obtain ⟨hknows, hdeferred⟩ := ih _ (hn ▸ hlt) h rfl
        exact ⟨fun name hname => hknows name (hround.knows name hname),
          fun k' hk' => (hround.knows_or_deferred k' hk').elim (hdeferred k') (hknows k'.name)⟩
      next => cases h

end Schema

end Espalier
