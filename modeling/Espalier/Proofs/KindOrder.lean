import Espalier.Proofs.DefiningKinds
import Espalier.Proofs.Inheritance

/-!
# The same kinds in another order

What a list of kinds says of a name does not depend on the order of the list: there is the kind of
that name, what the list says of its parent, and the members and the value that come with it.  The
rounds in which kinds are defined come to just that, and they fail where the list says nothing of
one of its kinds or too much, so two lists of the same kinds define the same schema up to the
indices, or none of them defines any.
-/

namespace Espalier

/-- What there is to know of a kind but its index: the name of its parent, the full layout, and
whether it carries a value. -/
structure Profile where
  parent : Option String
  layout : List MemberDecl
  valued : Bool

namespace KindSpec

variable {kinds kinds' : List KindSpec} {name : String} {profile profile' : Profile}

/-- The list says of `name` that it has the profile.  A kind without a parent is below `Node`. -/
inductive Describes (kinds : List KindSpec) : String → Profile → Prop where
  | node : Describes kinds "Node" ⟨none, [], false⟩
  | kind {k : KindSpec} {above : Profile} {layout : List MemberDecl} (hk : k ∈ kinds)
      (habove : Describes kinds (k.parent.getD "Node") above)
      (hlayout : Schema.extendLayout k.name above.layout k.members = .ok layout) :
      Describes kinds k.name ⟨some (k.parent.getD "Node"), layout, k.valued || above.valued⟩

theorem Describes.mono (h : Describes kinds name profile) (hsub : kinds ⊆ kinds') :
    Describes kinds' name profile := by
  induction h with
  | node => exact .node
  | kind hk _ hlayout ih => exact .kind (hsub hk) ih hlayout

theorem Describes.cases_name (h : Describes kinds name profile) :
    (name = "Node" ∧ profile = ⟨none, [], false⟩) ∨
      ∃ k ∈ kinds, k.name = name ∧ ∃ above layout, Describes kinds (k.parent.getD "Node") above ∧
        Schema.extendLayout k.name above.layout k.members = .ok layout ∧
          profile = ⟨some (k.parent.getD "Node"), layout, k.valued || above.valued⟩ := by
  cases h with
  | node => exact .inl ⟨rfl, rfl⟩
  | kind hk habove hlayout => exact .inr ⟨_, hk, rfl, _, _, habove, hlayout, rfl⟩

/-- The list says something of each of its kinds, and has one kind for each name. -/
structure Consistent (kinds : List KindSpec) : Prop where
  distinct : ("Node" :: kinds.map (·.name)).Nodup
  described : ∀ k ∈ kinds, ∃ profile, Describes kinds k.name profile

theorem Consistent.of_perm (h : Consistent kinds) (hperm : kinds.Perm kinds') :
    Consistent kinds' where
  distinct := ((hperm.map _).cons _).nodup h.distinct
  described k hk := by
    obtain ⟨profile, hprofile⟩ := h.described k (hperm.mem_iff.mpr hk)
    exact ⟨profile, hprofile.mono hperm.subset⟩

namespace Consistent

theorem name_ne_node (h : Consistent kinds) {k : KindSpec} (hk : k ∈ kinds) : k.name ≠ "Node" :=
  fun heq => (List.nodup_cons.mp h.distinct).1 (List.mem_map.mpr ⟨k, hk, heq⟩)

theorem eq_of_name (h : Consistent kinds) {k k' : KindSpec} (hk : k ∈ kinds) (hk' : k' ∈ kinds)
    (heq : k.name = k'.name) : k = k' :=
  List.inj_on_of_nodup_map (List.nodup_cons.mp h.distinct).2 hk hk' heq

/-- Of one name a list says one thing only. -/
theorem describes_unique (h : Consistent kinds) (hdescribes : Describes kinds name profile)
    (hdescribes' : Describes kinds name profile') : profile = profile' := by
  induction hdescribes generalizing profile' with
  | node =>
    rcases hdescribes'.cases_name with ⟨-, rfl⟩ | ⟨k, hk, hname, -⟩
    · rfl
    · exact absurd hname (h.name_ne_node hk)
  | @kind k above layout hk _ hlayout ih =>
    rcases hdescribes'.cases_name with ⟨hname, -⟩ | ⟨k', hk', hname, above', layout', habove',
      hlayout', rfl⟩
    · exact absurd hname (h.name_ne_node hk)
    · obtain rfl := h.eq_of_name hk' hk hname
      obtain rfl := ih habove'
      obtain rfl := Except.ok.inj (hlayout.symm.trans hlayout')
      rfl

end Consistent

end KindSpec

open KindSpec

namespace Schema

variable {s s' : Schema} {kinds deferred : List KindSpec} {k : KindSpec} {name : String}

/-! ## What a schema says of a name -/

/-- The profile of the kind of that name. -/
def profile? (s : Schema) (name : String) : Option Profile :=
  (s.lookup name).map fun k => ⟨(s.parent k).map s.name, s.layout k, s.isValued k⟩

theorem isSome_profile? : (s.profile? name).isSome = true ↔ s.Knows name := by
  rw [profile?, Option.isSome_map]
  rfl

theorem Built.lookup_node (hs : s.Built) : s.lookup "Node" = some nodeKind := by
  induction hs with
  | base => decide +kernel
  | define _ hdef ih =>
    have hfree := (eq_push_of_define hdef).1
    rw [lookup_of_define hdef]
    split
    next heq =>
      rw [← heq, ih] at hfree
      cases hfree
    next => exact ih

/-- The parent of a kind is the kind of that name. -/
theorem Built.parentOf?_eq (hs : s.Built) : s.parentOf? k = s.lookup (k.parent.getD "Node") := by
  unfold parentOf?
  cases k.parent with
  | none => exact hs.lookup_node.symm
  | some parent => rfl

/-- A definition leaves every profile as it is. -/
theorem profile?_of_define (hs : s.Indexed) {parent id : KindId} {members : List MemberDecl}
    {valued : Bool} {name' : String} (h : define name parent members valued s = .ok id s')
    (hne : name' ≠ name) : s'.profile? name' = s.profile? name' := by
  rw [profile?, lookup_of_define h, if_neg hne, profile?]
  obtain ⟨-, layout, hparent, -, rfl⟩ := eq_push_of_define h
  refine Option.map_congr fun k hk => ?_
  have hlt := (hs.name_of_lookup (Option.mem_def.mp hk)).1
  rw [parent_enter, layout_enter, isValued_enter, parent_push_of_lt hlt, layout_push_of_lt hlt,
    isValued_push_of_lt hlt]
  congr 1
  refine Option.map_congr fun p hp => ?_
  rw [name_enter, name_push_of_lt (Nat.lt_trans (parent_lt_of_eq (Option.mem_def.mp hp)) hlt)]

/-- The profile of a kind that has just been defined. -/
theorem profile?_define_self {parent id : KindId} {members : List MemberDecl} {valued : Bool}
    (h : define name parent members valued s = .ok id s') :
    parent < s.size ∧ ∃ layout, extendLayout name (s.layout parent) members = .ok layout ∧
      s'.profile? name = some ⟨some (s.name parent), layout, valued || s.isValued parent⟩ := by
  have hlookup : s'.lookup name = some s.size := by rw [lookup_of_define h, if_pos rfl]
  obtain ⟨-, layout, hparent, hlayout, rfl⟩ := eq_push_of_define h
  have hlt : parent < s.size := hparent parent rfl
  refine ⟨hlt, layout, hlayout, ?_⟩
  rw [profile?, hlookup, Option.map_some, parent_enter, layout_enter, isValued_enter,
    layout_push_size]
  have hself : (s.push ⟨name, some parent, layout, valued || s.isValued parent⟩ hparent).parent
      s.size = some parent := by simp [Schema.parent, push, size]
  have hvalued : (s.push ⟨name, some parent, layout, valued || s.isValued parent⟩ hparent).isValued
      s.size = (valued || s.isValued parent) := by simp [isValued, push, size]
  rw [hself, hvalued, Option.map_some, name_enter, name_push_of_lt hlt]

/-! ## Schemas that follow a list of kinds -/

/-- Whatever the schema knows is what the list says. -/
structure Follows (s : Schema) (kinds : List KindSpec) : Prop where
  built : s.Built
  describes : ∀ name profile, s.profile? name = some profile → Describes kinds name profile

theorem follows_base (kinds : List KindSpec) : base.Follows kinds := by
  refine ⟨.base, fun name profile h => ?_⟩
  obtain rfl := knows_base.mp (isSome_profile?.mp (Option.isSome_of_mem h))
  rw [profile?, Built.base.lookup_node] at h
  obtain rfl := Option.some.inj h
  exact .node

theorem Follows.describes_lookup (hs : s.Follows kinds) {k : KindId} (h : s.lookup name = some k) :
    Describes kinds name ⟨(s.parent k).map s.name, s.layout k, s.isValued k⟩ :=
  hs.describes name _ (by rw [profile?, h, Option.map_some])

theorem Follows.define (hs : s.Follows kinds) (hk : k ∈ kinds) {parent id : KindId}
    (hparent : s.parentOf? k = some parent)
    (hdef : define k.name parent k.members k.valued s = .ok id s') : s'.Follows kinds := by
  refine ⟨.define hs.built hdef, fun name profile h => ?_⟩
  by_cases hname : name = k.name
  · obtain ⟨-, layout, hlayout, hself⟩ := profile?_define_self hdef
    rw [hs.built.parentOf?_eq] at hparent
    rw [hname, hself, (hs.built.indexed.name_of_lookup hparent).2] at h
    obtain rfl := Option.some.inj h
    rw [hname]
    exact .kind hk (hs.describes_lookup hparent) hlayout
  · rw [profile?_of_define hs.built.indexed hdef hname] at h
    exact hs.describes name profile h

/-- A kind of a consistent list can be defined as soon as its parent is there. -/
theorem Follows.exists_define (hs : s.Follows kinds) (hkinds : Consistent kinds) (hk : k ∈ kinds)
    (hunknown : ¬ s.Knows k.name) {parent : KindId} (hparent : s.parentOf? k = some parent) :
    ∃ s', Schema.define k.name parent k.members k.valued s = .ok s.size s' := by
  rw [hs.built.parentOf?_eq] at hparent
  obtain ⟨profile, hdescribes⟩ := hkinds.described k hk
  rcases hdescribes.cases_name with ⟨hname, -⟩ | ⟨k', hk', hname, above, layout, habove, hlayout, -⟩
  · exact absurd hname (hkinds.name_ne_node hk)
  · obtain rfl := hkinds.eq_of_name hk' hk hname
    -- What the list says of the parent is what the schema knows of it.
    obtain rfl := hkinds.describes_unique habove (hs.describes_lookup hparent)
    have hlt := (hs.built.indexed.name_of_lookup hparent).1
    exact ⟨_, define_of_extendLayout (Option.not_isSome_iff_eq_none.mp hunknown)
      (by simpa using hlt) hlayout⟩

/-! ## Rounds -/

/-- The rounds, one after the other: kinds that are put off are tried again, as long as there are
some and fewer than before. -/
inductive Rounds : Nat → Schema → List KindSpec → Except CompileError Schema → Prop where
  | done {s : Schema} : Rounds 0 s [] (.ok s)
  | failed {s : Schema} {kinds : List KindSpec} {e : CompileError} (hne : kinds ≠ [])
      (h : s.defineSome kinds = .error e) : Rounds 1 s kinds (.error e)
  | stuck {s s' : Schema} {kinds deferred : List KindSpec} {k : KindSpec} (hne : kinds ≠ [])
      (h : s.defineSome kinds = .ok (s', k :: deferred))
      (hlength : (k :: deferred).length = kinds.length) :
      Rounds 1 s kinds (.error (.kind k.name (.unknownKind (k.parent.getD ""))))
  | again {s s' : Schema} {kinds deferred : List KindSpec} {n : Nat}
      {r : Except CompileError Schema} (hne : kinds ≠ [])
      (h : s.defineSome kinds = .ok (s', deferred))
      (hlength : deferred.length ≠ kinds.length) (hrest : Rounds n s' deferred r) :
      Rounds (n + 1) s kinds r

/-- There are no more rounds than kinds. -/
theorem exists_rounds (s : Schema) (kinds : List KindSpec) :
    ∃ n ≤ kinds.length, Rounds n s kinds (s.defineAll kinds) := by
  induction hn : kinds.length using Nat.strongRecOn generalizing s kinds with
  | ind n ih =>
    subst hn
    by_cases hne : kinds = []
    · subst hne
      rw [defineAll, defineSome]
      exact ⟨0, Nat.le_refl 0, .done⟩
    · have hpos : 1 ≤ kinds.length := List.length_pos_of_ne_nil hne
      rw [defineAll]
      split
      next e hsome => exact ⟨1, hpos, .failed hne hsome⟩
      next s₁ hsome => exact ⟨1, hpos, .again hne hsome (Nat.ne_of_lt hpos) .done⟩
      next s₁ k deferred hsome =>
        have hle := (round_of_defineSome hsome).sublist.length_le
        split
        next hlt =>
          obtain ⟨n, hn, hrounds⟩ := ih _ hlt s₁ (k :: deferred) rfl
          exact ⟨n + 1, Nat.succ_le_of_lt (Nat.lt_of_le_of_lt hn hlt),
            .again hne hsome (Nat.ne_of_lt hlt) hrounds⟩
        next hge => exact ⟨1, hpos, .stuck hne hsome (Nat.le_antisymm hle (Nat.le_of_not_lt hge))⟩

theorem names_define {parent id : KindId} {members : List MemberDecl} {valued : Bool}
    (h : define name parent members valued s = .ok id s') : s'.names = s.names ++ [name] := by
  obtain ⟨-, layout, hparent, -, rfl⟩ := eq_push_of_define h
  rw [names_enter, names_push]

/-- A round takes the names of what it defines. -/
theorem names_of_defineSome (h : s.defineSome kinds = .ok (s', deferred)) :
    (s'.names ++ deferred.map (·.name)).Perm (s.names ++ kinds.map (·.name)) := by
  induction kinds generalizing s deferred with
  | nil =>
    cases h
    exact .refl _
  | cons k ks ih =>
    rw [defineSome] at h
    split at h
    next parent _ =>
      split at h
      next => cases h
      next id s₁ hdef =>
        have hrest := ih h
        rwa [names_define hdef, List.append_assoc, List.singleton_append] at hrest
    next =>
      split at h
      next => cases h
      next s₁ rest hsome =>
        cases h
        calc s'.names ++ k.name :: rest.map (·.name)
          _ |>.Perm (k.name :: (s'.names ++ rest.map (·.name))) := List.perm_middle
          _ |>.Perm (k.name :: (s.names ++ ks.map (·.name))) := (ih hsome).cons _
          _ |>.Perm (s.names ++ k.name :: ks.map (·.name)) := List.perm_middle.symm

theorem names_of_defineAll (h : s.defineAll kinds = .ok s') :
    s'.names.Perm (s.names ++ kinds.map (·.name)) := by
  induction hn : kinds.length using Nat.strongRecOn generalizing s kinds with
  | ind n ih =>
    rw [defineAll] at h
    split at h
    next => cases h
    next s₁ hsome =>
      cases h
      simpa using names_of_defineSome hsome
    next s₁ k deferred hsome =>
      split at h
      next hlt => exact (ih _ (hn ▸ hlt) h rfl).trans (names_of_defineSome hsome)
      next => cases h

/-- The kinds of a consistent list that are still to be defined, where the schema knows all the
others. -/
structure Follows.Pending (s : Schema) (kinds pending : List KindSpec) : Prop where
  follows : s.Follows kinds
  subset : pending ⊆ kinds
  distinct : (pending.map (·.name)).Nodup
  unknown : ∀ k ∈ pending, ¬ s.Knows k.name
  known : ∀ k ∈ kinds, k ∈ pending ∨ s.Knows k.name

theorem Follows.exists_defineSome (hs : s.Follows kinds) (hkinds : Consistent kinds)
    {pending : List KindSpec} (hsub : pending ⊆ kinds) (hdistinct : (pending.map (·.name)).Nodup)
    (hunknown : ∀ k ∈ pending, ¬ s.Knows k.name) :
    ∃ s' deferred, s.defineSome pending = .ok (s', deferred) := by
  induction pending generalizing s with
  | nil => exact ⟨s, [], rfl⟩
  | cons k ks ih =>
    rw [List.map_cons, List.nodup_cons] at hdistinct
    rw [List.forall_mem_cons] at hunknown
    rw [List.cons_subset] at hsub
    rw [defineSome]
    split
    next parent hparent =>
      obtain ⟨s₁, hdef⟩ := hs.exists_define hkinds hsub.1 hunknown.1 hparent
      rw [hdef]
      exact ih (hs.define hsub.1 hparent hdef) hsub.2 hdistinct.2
        (not_knows_of_define hdef hdistinct.1 hunknown.2)
    next =>
      obtain ⟨s', deferred, hsome⟩ := ih hs hsub.2 hdistinct.2 hunknown.2
      rw [hsome]
      exact ⟨s', k :: deferred, rfl⟩

namespace Follows.Pending

variable {pending : List KindSpec}

theorem next (h : Pending s kinds pending) (hsome : s.defineSome pending = .ok (s', deferred)) :
    Pending s' kinds deferred := by
  have hround := round_of_defineSome hsome
  obtain ⟨hfollows, -⟩ := invariant_of_defineSome (P := (Follows · kinds))
    (fun k hk _ _ _ _ hs hparent hdef => hs.define (h.subset hk) hparent hdef) h.follows hsome
  refine ⟨hfollows, fun k hk => h.subset (hround.sublist.subset hk),
    h.distinct.sublist (hround.sublist.map _),
    hround.unknown h.distinct h.unknown, fun k hk => ?_⟩
  rcases h.known k hk with hpending | hknown
  · exact hround.knows_or_deferred k hpending
  · exact .inr (hround.knows k.name hknown)

/-- Where nothing that is left has a parent, the schema knows all that the list speaks of. -/
theorem knows_of_describes (h : Pending s kinds pending)
    (hstuck : ∀ k ∈ pending, s.parentOf? k = none)
    {profile : Profile} (hdescribes : Describes kinds name profile) : s.Knows name := by
  induction hdescribes with
  | node =>
    unfold Knows
    rw [h.follows.built.lookup_node]
    rfl
  | @kind k above layout hk _ _ ih =>
    rcases h.known k hk with hpending | hknown
    · have hnone := hstuck k hpending
      unfold Knows at ih
      rw [← h.follows.built.parentOf?_eq, hnone] at ih
      cases ih
    · exact hknown

theorem exists_defineAll (hkinds : Consistent kinds) (h : Pending s kinds pending) :
    ∃ s', s.defineAll pending = .ok s' := by
  induction hn : pending.length using Nat.strongRecOn generalizing s pending with
  | ind n ih =>
    obtain ⟨s₁, deferred, hsome⟩ :=
      h.follows.exists_defineSome hkinds h.subset h.distinct h.unknown
    rw [defineAll, hsome]
    cases deferred with
    | nil => exact ⟨s₁, rfl⟩
    | cons k deferred =>
      dsimp only
      split
      next hlt => exact ih _ (hn ▸ hlt) (h.next hsome) rfl
      next hge =>
        -- All of them have been put off, so that none of them has its parent in the schema.
        have hround := round_of_defineSome hsome
        have heq : k :: deferred = pending := hround.sublist.eq_of_length_le (Nat.le_of_not_lt hge)
        have hk : k ∈ pending := heq ▸ List.mem_cons_self
        obtain ⟨profile, hdescribes⟩ := hkinds.described k (h.subset hk)
        exact absurd (h.knows_of_describes (heq ▸ hround.parentOf?) hdescribes) (h.unknown k hk)

end Follows.Pending

/-! ## Lists of kinds -/

theorem follows_of_ofKinds (h : ofKinds kinds = .ok s) : s.Follows kinds :=
  invariant_of_defineAll (P := (Follows · kinds))
    (fun _ hk _ _ _ _ hs hparent hdef => hs.define hk hparent hdef) (follows_base kinds) h

/-- The kinds of a list can be defined if and only if the list is consistent. -/
theorem exists_ofKinds_iff : (∃ s, ofKinds kinds = .ok s) ↔ Consistent kinds := by
  constructor
  · rintro ⟨s, h⟩
    have hfollows := follows_of_ofKinds h
    have hnames : s.names.Perm ("Node" :: kinds.map (·.name)) := names_of_defineAll h
    refine ⟨hnames.nodup hfollows.built.distinct.names, fun k hk => ?_⟩
    obtain ⟨profile, hprofile⟩ := Option.isSome_iff_exists.mp
      (isSome_profile?.mpr ((knows_of_defineAll h).2 k hk))
    exact ⟨profile, hfollows.describes k.name profile hprofile⟩
  · intro h
    refine Follows.Pending.exists_defineAll h ⟨follows_base kinds, List.Subset.refl _,
      (List.nodup_cons.mp h.distinct).2, fun k hk hknows => ?_, fun k hk => .inl hk⟩
    exact h.name_ne_node hk (knows_base.mp hknows)

theorem knows_of_ofKinds (h : ofKinds kinds = .ok s) :
    s.Knows name ↔ name ∈ "Node" :: kinds.map (·.name) := by
  have hnames : s.names.Perm ("Node" :: kinds.map (·.name)) := names_of_defineAll h
  rw [Knows, (follows_of_ofKinds h).built.indexed.isSome_lookup_iff, hnames.mem_iff]

/-- The schemas know the same names, and the kinds of one name have the same profile and the same
descendants. -/
structure Alike (s s' : Schema) : Prop where
  knows : ∀ name, s.Knows name ↔ s'.Knows name
  profile : ∀ name, s.profile? name = s'.profile? name
  isSubkind : ∀ {sub sup : String} {i j i' j' : KindId},
    s.lookup sub = some i → s.lookup sup = some j →
    s'.lookup sub = some i' → s'.lookup sup = some j' → s.isSubkind i j = s'.isSubkind i' j'

/-- Ancestors are found under the same names. -/
theorem isSubkind_of_profile? (hs : s.Indexed) (hs' : s'.Indexed)
    (hprofile : ∀ name, s.profile? name = s'.profile? name) {sub sup : String} {i j i' j' : KindId}
    (hi : s.lookup sub = some i) (hj : s.lookup sup = some j) (hi' : s'.lookup sub = some i')
    (hj' : s'.lookup sup = some j') (h : s.isSubkind i j = true) : s'.isSubkind i' j' = true := by
  induction i using Nat.strongRecOn generalizing sub i' with
  | ind i ih =>
    rcases isSubkind_iff.mp h with rfl | ⟨p, hp, hpj⟩
    · obtain rfl : sub = sup := (hs.name_of_lookup hi).2.symm.trans (hs.name_of_lookup hj).2
      obtain rfl := Option.some.inj (hi'.symm.trans hj')
      exact isSubkind_refl s' i'
    · have hparent : (s.parent i).map s.name = (s'.parent i').map s'.name := by
        have heq := hprofile sub
        rw [profile?, profile?, hi, hi', Option.map_some, Option.map_some] at heq
        exact congrArg Profile.parent (Option.some.inj heq)
      rw [hp, Option.map_some] at hparent
      obtain ⟨p', hp', hname⟩ := Option.map_eq_some_iff.mp hparent.symm
      have hlt := parent_lt_of_eq hp
      have hlookup := hs.lookup_name (Nat.lt_trans hlt (hs.name_of_lookup hi).1)
      have hlookup' := hs'.lookup_name
        (Nat.lt_trans (parent_lt_of_eq hp') (hs'.name_of_lookup hi').1)
      rw [hname] at hlookup'
      exact isSubkind_iff.mpr (.inr ⟨p', hp', ih p hlt hlookup hlookup' hpj⟩)

theorem alike_of_follows (hkinds : Consistent kinds) (hs : s.Follows kinds) (hs' : s'.Follows kinds)
    (hknows : ∀ name, s.Knows name ↔ s'.Knows name) : s.Alike s' := by
  have hprofile : ∀ name, s.profile? name = s'.profile? name := by
    intro name
    cases hname : s.profile? name with
    | none =>
      have hunknown : ¬ s'.Knows name := by
        rw [← hknows, ← isSome_profile?, hname]
        exact Bool.false_ne_true
      rw [← isSome_profile?] at hunknown
      exact (Option.not_isSome_iff_eq_none.mp hunknown).symm
    | some profile =>
      have hknown : s'.Knows name := (hknows name).mp (isSome_profile?.mp (hname ▸ rfl))
      obtain ⟨profile', hname'⟩ := Option.isSome_iff_exists.mp (isSome_profile?.mpr hknown)
      rw [hname', hkinds.describes_unique (hs.describes name profile hname)
        (hs'.describes name profile' hname')]
  refine ⟨hknows, hprofile, fun hi hj hi' hj' => Bool.eq_iff_iff.mpr ⟨?_, ?_⟩⟩
  · exact isSubkind_of_profile? hs.built.indexed hs'.built.indexed hprofile hi hj hi' hj'
  · exact isSubkind_of_profile? hs'.built.indexed hs.built.indexed
      (fun name => (hprofile name).symm) hi' hj' hi hj

/-- The rounds over a list of kinds come to an end, and for two orders of one list they succeed on
both or fail on both.  If they succeed, the two schemas are alike. -/
theorem ofKinds_of_perm {kinds kinds' : List KindSpec} (h : kinds.Perm kinds') :
    (∃ n ≤ kinds.length, Rounds n base kinds (ofKinds kinds)) ∧
    ((∃ s, ofKinds kinds = .ok s) ↔ ∃ s', ofKinds kinds' = .ok s') ∧
    ∀ s s', ofKinds kinds = .ok s → ofKinds kinds' = .ok s' → s.Alike s' := by
  refine ⟨exists_rounds base kinds, ?_, fun s s' hs hs' => ?_⟩
  · rw [exists_ofKinds_iff, exists_ofKinds_iff]
    exact ⟨fun hkinds => hkinds.of_perm h, fun hkinds => hkinds.of_perm h.symm⟩
  · have hfollows' : s'.Follows kinds :=
      ⟨(follows_of_ofKinds hs').built, fun name profile hprofile =>
        ((follows_of_ofKinds hs').describes name profile hprofile).mono h.symm.subset⟩
    refine alike_of_follows (exists_ofKinds_iff.mp ⟨s, hs⟩) (follows_of_ofKinds hs) hfollows'
      fun name => ?_
    rw [knows_of_ofKinds hs, knows_of_ofKinds hs', ((h.map _).cons _).mem_iff]

/-- A kind before its parent, and one that comes between them. -/
def childFirst : List KindSpec :=
  [{ name := "Sum", parent := some "Pair", members := [⟨"sign", .single⟩], valued := false },
    { name := "Leaf", parent := none, members := [], valued := true },
    { name := "Pair", parent := none, members := [⟨"left", .single⟩, ⟨"right", .single⟩],
      valued := false }]

/-- The kinds as they are defined from the front, and from the back. -/
def fromFront : Schema :=
  Definition.after .base [⟨"Leaf", 0, [], true⟩,
    ⟨"Pair", 0, [⟨"left", .single⟩, ⟨"right", .single⟩], false⟩,
    ⟨"Sum", 2, [⟨"sign", .single⟩], false⟩]

@[inherit_doc fromFront]
def fromBack : Schema :=
  Definition.after .base [⟨"Pair", 0, [⟨"left", .single⟩, ⟨"right", .single⟩], false⟩,
    ⟨"Leaf", 0, [], true⟩, ⟨"Sum", 1, [⟨"sign", .single⟩], false⟩]

theorem ofKinds_of_perm_childFirst :
    ofKinds childFirst = .ok fromFront ∧ ofKinds childFirst.reverse = .ok fromBack ∧
      fromFront.lookup "Pair" = some 2 ∧ fromBack.lookup "Pair" = some 1 ∧
        fromFront.Alike fromBack := by
  have hperm : childFirst.Perm childFirst.reverse := (List.reverse_perm _).symm
  have hfront : ofKinds childFirst = .ok fromFront := by decide +kernel
  have hback : ofKinds childFirst.reverse = .ok fromBack := by decide +kernel
  refine ⟨hfront, hback, by decide +kernel, by decide +kernel, ?_⟩
  exact (ofKinds_of_perm hperm).2.2 _ _ hfront hback

end Schema

end Espalier
