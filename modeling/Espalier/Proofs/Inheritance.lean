import Espalier.Proofs.BuiltSchema

/-!
# Kinds and the kinds above them

However kinds are asked for, and whether they can be defined or not, the kinds of a schema descend
from each other and in the end from `Node`.  A kind starts with the members of every kind above it
and has a value wherever one of them has, so a node can be read as a node of any kind above its own.
-/

namespace Espalier

namespace Schema

variable {s : Schema} {a b c : KindId}

/-! ## The order of kinds -/

theorem isSubkind_refl (s : Schema) (a : KindId) : s.isSubkind a a = true := by
  rw [isSubkind, if_pos rfl]

/-- A kind is below another if it is that kind, or if its parent is below it. -/
theorem isSubkind_iff :
    s.isSubkind a b = true ↔ a = b ∨ ∃ p, s.parent a = some p ∧ s.isSubkind p b = true := by
  rw [isSubkind]
  split
  next heq => exact iff_of_true rfl (.inl heq)
  next hne =>
    split
    next p hp => simp [hne, hp]
    next hnone => simp [hne, hnone]

/-- Ancestors come first. -/
theorem le_of_isSubkind (h : s.isSubkind a b = true) : b ≤ a := by
  induction a using Nat.strongRecOn with
  | ind a ih =>
    rcases isSubkind_iff.mp h with rfl | ⟨p, hp, hpb⟩
    · exact Nat.le_refl a
    · have hlt := parent_lt_of_eq hp
      exact Nat.le_of_lt (Nat.lt_of_le_of_lt (ih p hlt hpb) hlt)

theorem isSubkind_antisymm (h : s.isSubkind a b = true) (h' : s.isSubkind b a = true) : a = b :=
  Nat.le_antisymm (le_of_isSubkind h') (le_of_isSubkind h)

theorem isSubkind_trans (h : s.isSubkind a b = true) (h' : s.isSubkind b c = true) :
    s.isSubkind a c = true := by
  induction a using Nat.strongRecOn with
  | ind a ih =>
    rcases isSubkind_iff.mp h with rfl | ⟨p, hp, hpb⟩
    · exact h'
    · exact isSubkind_iff.mpr (.inr ⟨p, hp, ih p (parent_lt_of_eq hp) hpb⟩)

/-- The kinds of a schema have names of their own, with members of different names, and each of them
but `Node` has a parent that comes before it.  To descend from a kind is a partial order below
`Node`, in which members and values are handed down. -/
structure Ordered (s : Schema) : Prop where
  size_pos : 0 < s.size
  parent : ∀ k < s.size, k ≠ nodeKind → ∃ p < k, s.parent k = some p
  lookup_name : ∀ k < s.size, s.lookup (s.name k) = some k
  name_lookup : ∀ name k, s.lookup name = some k → k < s.size ∧ s.name k = name
  members : ∀ k, ((s.layout k).map MemberDecl.name).Nodup
  refl : ∀ a, s.isSubkind a a = true
  trans : ∀ a b c, s.isSubkind a b = true → s.isSubkind b c = true → s.isSubkind a c = true
  antisymm : ∀ a b, s.isSubkind a b = true → s.isSubkind b a = true → a = b
  greatest : ∀ k < s.size, s.isSubkind k nodeKind = true
  layout : ∀ sub sup, s.isSubkind sub sup = true → s.layout sup <+: s.layout sub
  isValued : ∀ sub sup, s.isSubkind sub sup = true → s.isValued sup = true → s.isValued sub = true

theorem Built.rooted (hs : s.Built) : s.Rooted := by
  induction hs with
  | base => exact rooted_base
  | define _ hdef ih => exact ih.define hdef

theorem Built.ordered (hs : s.Built) : s.Ordered where
  size_pos := hs.size_pos
  parent k hk hne := by
    obtain ⟨p, hp⟩ := Option.isSome_iff_exists.mp (hs.rooted k hk hne)
    exact ⟨p, parent_lt_of_eq hp, hp⟩
  lookup_name _ hk := hs.indexed.lookup_name hk
  name_lookup _ _ h := hs.indexed.name_of_lookup h
  members := hs.distinct.members
  refl := s.isSubkind_refl
  trans _ _ _ := isSubkind_trans
  antisymm _ _ := isSubkind_antisymm
  greatest _ hk := hs.rooted.isSubkind_nodeKind hk
  layout _ _ h := hs.wellFormed.layout_isPrefix h
  isValued _ _ h := hs.isValued_of_isSubkind h

end Schema

/-! ## Definitions one after the other -/

/-- A kind that is asked for, with the members that it has beyond those of its parent. -/
structure Definition where
  name : String
  parent : KindId
  members : List MemberDecl
  valued : Bool

namespace Definition

/-- Define the kind, which is then the last one. -/
def run (d : Definition) : EStateM SchemaError Schema KindId :=
  Schema.define d.name d.parent d.members d.valued

/-- What the schema has become after some definitions, each on what those before it have left. -/
def after (s : Schema) (ds : List Definition) : Schema :=
  ds.foldl (fun s d => match d.run s with | .ok _ s' | .error _ s' => s') s

variable {s : Schema}

theorem built_after (hs : s.Built) (ds : List Definition) : (after s ds).Built := by
  induction ds generalizing s with
  | nil => exact hs
  | cons d ds ih =>
    rw [after, List.foldl_cons]
    refine ih ?_
    cases hrun : d.run s with
    | ok k s' => exact .define hs hrun
    | error e s' => exact (Schema.eq_of_define_error hrun).symm ▸ hs

/-- After any definitions, failed ones among them, the kinds are in order; a further one that fails
changes nothing; and a node that fits its kind has, read as one of any kind above it, the members
that are declared there. -/
theorem ordered_after (ds : List Definition) :
    (after .base ds).Ordered ∧
    (∀ (d : Definition) (e : SchemaError) (s' : Schema),
      d.run (after .base ds) = .error e s' → s' = after .base ds) ∧
    ∀ (f : Forest (after .base ds)) (id : NodeId) (kind : KindId),
      (f.get id).Fits (after .base ds) → (after .base ds).isSubkind (f.kind id) kind = true →
        ∃ members, f.itemiseAs id kind = some members ∧
          MembersFit ((after .base ds).layout kind) members := by
  have hbuilt : (after .base ds).Built := built_after .base ds
  refine ⟨hbuilt.ordered, fun d e s' h => Schema.eq_of_define_error h, ?_⟩
  intro f id kind hfits hsub
  have hfit : MembersFit ((after .base ds).layout (f.kind id)) (f.get id).members := hfits.members
  refine ⟨_, Forest.itemiseAs_of_membersFit hbuilt.wellFormed hfit hsub, ?_⟩
  exact hfit.take (hbuilt.wellFormed.layout_isPrefix hsub)

/-- Of these `Expr`, `Pair` and `Labelled` can be defined.  The others ask for a name that is taken,
for a parent that is not there and for a member that is inherited. -/
def labelledPair : List Definition :=
  [⟨"Expr", 0, [], true⟩, ⟨"Expr", 0, [], false⟩, ⟨"Stray", 7, [], false⟩,
    ⟨"Pair", 1, [⟨"left", .single⟩, ⟨"right", .single⟩], false⟩,
    ⟨"Twice", 2, [⟨"left", .sequence⟩], false⟩,
    ⟨"Labelled", 2, [⟨"labels", .collection⟩], false⟩]

/-- A labelled pair of which the left side is there. -/
def labelledForest : Forest (after .base labelledPair) :=
  (Forest.empty.push ⟨1, none, []⟩).push ⟨3, none, [.single (some 0), .single none, .collection []]⟩

theorem ordered_after_labelledPair :
    (after .base labelledPair).names = ["Node", "Expr", "Pair", "Labelled"] ∧
      (after .base labelledPair).isSubkind 3 1 = true ∧
      (after .base labelledPair).isValued 3 = true ∧
      ∃ members, labelledForest.itemiseAs 1 2 = some members ∧
        MembersFit [⟨"left", .single⟩, ⟨"right", .single⟩] members := by
  obtain ⟨hordered, -, hitemise⟩ := ordered_after labelledPair
  have hnode : labelledForest.get 1 =
      ⟨3, none, [.single (some 0), .single none, .collection []]⟩ := by
    decide +kernel
  have hlabelled : (after .base labelledPair).layout 3 =
      [⟨"left", .single⟩, ⟨"right", .single⟩, ⟨"labels", .collection⟩] := by decide +kernel
  have hpair : (after .base labelledPair).layout 2 = [⟨"left", .single⟩, ⟨"right", .single⟩] := by
    decide +kernel
  have hfits : (labelledForest.get 1).Fits (after .base labelledPair) := by
    rw [hnode]
    exact ⟨by decide +kernel, by simp, by rw [hlabelled]; rfl, by simp⟩
  have hexpr : (after .base labelledPair).isSubkind 3 1 = true := by decide +kernel
  refine ⟨by decide +kernel, hexpr, hordered.isValued 3 1 hexpr (by decide +kernel), ?_⟩
  rw [← hpair]
  exact hitemise labelledForest 1 2 hfits (by decide +kernel)

end Definition

end Espalier
