import Espalier.Proofs.Shares
import Espalier.Proofs.WellFormed

/-!
# Declared and decided links

What a pattern may decide when it is held against a subject, said without choices, and how that
relates to the query of the pattern: every decided link is one that the query declares, and every
declared link that is not abnormal is decided once, but of a disjunction only one is.
-/

namespace Espalier

section Members

variable {α : Type} {isStar : α → Bool} {misfit : Fault}

theorem gives_membersDecided_cons {slot : Nat} {m : Member α} {x : Member NodeId}
    {ms : List (Member α)} {xs : List (Member NodeId)} {links : List (DecidedLink α)}
    (hcat : m.category = x.category) (hstars : m.StarsFit isStar) :
    (membersDecided isStar misfit slot (m :: ms) (x :: xs)).Gives links ↔
      ∃ these rest, MemberShare isStar slot m x these ∧
        (membersDecided isStar misfit (slot + m.width) ms xs).Gives rest ∧
          links = these ++ rest := by
  rcases m with (_ | p) | ps | ps <;> rcases x with (_ | c) | items | items <;> try cases hcat
  · simp [membersDecided, MemberShare]
  · simp [membersDecided, MemberShare]
  · simp [membersDecided, MemberShare]
  · simp [membersDecided, MemberShare]
  · simp [membersDecided, MemberShare, gives_sequenceLinks]
  · simp [membersDecided, MemberShare, gives_collectionLinks hstars]

/-- Members of the same categories are held against each other one by one. -/
theorem gives_membersDecided {slot : Nat} {ms : List (Member α)} {xs : List (Member NodeId)}
    {links : List (DecidedLink α)} (hcat : ms.map Member.category = xs.map Member.category)
    (hstars : ∀ m ∈ ms, m.StarsFit isStar) :
    (membersDecided isStar misfit slot ms xs).Gives links ↔
      MembersShare isStar slot ms xs links := by
  induction ms generalizing slot xs links with
  | nil =>
    obtain rfl : xs = [] := by simpa using hcat.symm
    rw [membersDecided.eq_def]
    constructor
    · intro h
      obtain rfl := Attempt.gives_pure.mp h
      exact .nil
    · rintro ⟨⟩
      exact Attempt.gives_pure.mpr rfl
  | cons m ms ih =>
    cases xs with
    | nil => simp at hcat
    | cons x xs =>
      obtain ⟨hm, hms⟩ := List.cons.inj hcat
      rw [gives_membersDecided_cons hm (hstars m (by simp))]
      have hrest : ∀ {rest}, (membersDecided isStar misfit (slot + m.width) ms xs).Gives rest ↔
          MembersShare isStar (slot + m.width) ms xs rest :=
        ih hms fun m' hm' => hstars m' (by simp [hm'])
      constructor
      · rintro ⟨these, rest, hthese, h, rfl⟩
        exact .cons hthese (hrest.mp h)
      · intro h
        cases h with
        | cons hthese h => exact ⟨_, _, hthese, hrest.mpr h, rfl⟩

theorem not_faults_membersDecided {slot : Nat} {ms : List (Member α)} {xs : List (Member NodeId)}
    {e : Fault} (hcat : ms.map Member.category = xs.map Member.category) :
    ¬ (membersDecided isStar misfit slot ms xs).Faults e := by
  induction ms generalizing slot xs with
  | nil =>
    rw [membersDecided.eq_def]
    simp
  | cons m ms ih =>
    cases xs with
    | nil => simp at hcat
    | cons x xs =>
      obtain ⟨hm, hms⟩ := List.cons.inj hcat
      have hrest : ∀ slot, ¬ (membersDecided isStar misfit slot ms xs).Faults e := fun _ => ih hms
      rcases m with (_ | p) | ps | ps <;> rcases x with (_ | c) | items | items <;> try cases hm
      all_goals
        simp [membersDecided, hrest, not_faults_sequenceLinks, not_faults_collectionLinks]

theorem memberLinks_eq_containerLinks {slot : Nat} {m : Member α} :
    memberLinks isStar slot m = containerLinks isStar slot m.children := rfl

/-- The key of a decided link is a run exactly for a star. -/
def DecidedLink.Shaped (isStar : α → Bool) (l : DecidedLink α) : Prop :=
  match l.key with
  | .node _ => l.kind ≠ .multiplicity ∧ isStar l.target = false
  | .run .. => l.kind = .multiplicity ∧ isStar l.target = true

theorem DecidedLink.Shaped.target_isStar {l : DecidedLink α} (h : l.Shaped isStar)
    (hk : l.kind = .multiplicity) : isStar l.target = true := by
  rw [DecidedLink.Shaped] at h
  split at h
  · exact (h.1 hk).elim
  · exact h.2

theorem DecidedLink.Shaped.exists_node {l : DecidedLink α} (h : l.Shaped isStar)
    (hk : l.kind ≠ .multiplicity) : isStar l.target = false ∧ ∃ x, l.key = .node x := by
  rw [DecidedLink.Shaped] at h
  split at h
  next x hx => exact ⟨h.2, x, hx⟩
  next => exact (hk h.1).elim

theorem SequenceSplit.shaped {slot : Nat} {ps : List α} {xs : List NodeId}
    {links : List (DecidedLink α)} (h : SequenceSplit isStar slot ps xs links) :
    ∀ l ∈ links, l.Shaped isStar := by
  induction h with
  | nil => simp
  | star hp _ ih => simpa [DecidedLink.Shaped, hp] using ih
  | one hp _ ih => simpa [DecidedLink.Shaped, hp] using ih

theorem Assigned.shaped {slot : Nat} {ps : List α} {xs rest : List NodeId}
    {links : List (DecidedLink α)} (h : Assigned isStar slot ps xs links rest) :
    ∀ l ∈ links, l.Shaped isStar := by
  induction h with
  | nil => simp
  | star _ _ ih => exact ih
  | one hp _ _ ih => simpa [DecidedLink.Shaped, hp] using ih

theorem CollectionShare.shaped {slot : Nat} {ps : List α} {xs : List NodeId}
    {links : List (DecidedLink α)} (h : CollectionShare isStar slot ps xs links) :
    ∀ l ∈ links, l.Shaped isStar := by
  cases h with
  | full _ h => exact h.shaped
  | rest _ hstar _ _ h =>
    intro l hl
    rcases List.mem_append.mp hl with hl | hl
    · exact h.shaped l hl
    · obtain rfl := List.mem_singleton.mp hl
      exact ⟨rfl, hstar⟩

theorem MemberShare.shaped {slot : Nat} {m : Member α} {x : Member NodeId}
    {links : List (DecidedLink α)} (hstars : m.StarsFit isStar)
    (h : MemberShare isStar slot m x links) : ∀ l ∈ links, l.Shaped isStar := by
  rcases m with (_ | p) | ps | ps <;> rcases x with (_ | c) | items | items <;>
    simp only [MemberShare] at h
  · simp [h]
  · simp [h]
  · have hp : isStar p = false := hstars p rfl
    simp [h, DecidedLink.Shaped, hp]
  · exact h.shaped
  · exact h.shaped

theorem MemberShare.declared_perm {slot : Nat} {m : Member α} {x : Member NodeId}
    {links : List (DecidedLink α)} (hstars : m.StarsFit isStar)
    (h : MemberShare isStar slot m x links) :
    (links.map DecidedLink.declared).Perm (memberLinks isStar slot m) := by
  rcases m with (_ | p) | ps | ps <;> rcases x with (_ | c) | items | items <;>
    simp only [MemberShare] at h
  · rw [h]; exact List.Perm.refl _
  · rw [h]; exact List.Perm.refl _
  · have hp : isStar p = false := hstars p rfl
    rw [h, memberLinks_eq_containerLinks]
    simp [Member.children, DecidedLink.declared, hp]
  · rw [h.declared_eq]; exact List.Perm.refl _
  · exact h.declared_perm

theorem kind_ne_abnormal_of_mem_membersLinks {slot : Nat} {ms : List (Member α)} {l : Link α}
    (h : l ∈ membersLinks isStar slot ms) : l.kind ≠ .abnormal := by
  induction ms generalizing slot with
  | nil => cases h
  | cons m ms ih =>
    rcases List.mem_append.mp h with h | h
    · obtain ⟨⟨q, offset⟩, -, rfl⟩ := List.mem_map.mp h
      dsimp only
      split
      · rintro ⟨⟩
      · rintro ⟨⟩
    · exact ih h

namespace MembersShare

variable {slot : Nat} {ms : List (Member α)} {xs : List (Member NodeId)}
  {links : List (DecidedLink α)}

theorem shaped (h : MembersShare isStar slot ms xs links) (hstars : ∀ m ∈ ms, m.StarsFit isStar) :
    ∀ l ∈ links, l.Shaped isStar := by
  induction h with
  | nil => simp
  | cons hm _ ih =>
    intro l hl
    rcases List.mem_append.mp hl with hl | hl
    · exact hm.shaped (hstars _ (by simp)) l hl
    · exact ih (fun m hm => hstars m (by simp [hm])) l hl

theorem declared_perm (h : MembersShare isStar slot ms xs links)
    (hstars : ∀ m ∈ ms, m.StarsFit isStar) :
    (links.map DecidedLink.declared).Perm (membersLinks isStar slot ms) := by
  induction h with
  | nil => exact List.Perm.refl _
  | cons hm _ ih =>
    rw [List.map_append, membersLinks]
    exact (hm.declared_perm (hstars _ (by simp))).append (ih fun m hm => hstars m (by simp [hm]))

theorem kind_ne_abnormal (h : MembersShare isStar slot ms xs links)
    (hstars : ∀ m ∈ ms, m.StarsFit isStar) {l : DecidedLink α} (hl : l ∈ links) :
    l.kind ≠ .abnormal := by
  have hmem := (h.declared_perm hstars).mem_iff.mp (List.mem_map_of_mem hl)
  exact kind_ne_abnormal_of_mem_membersLinks hmem

end MembersShare

/-! ## Slots -/

theorem slot_containerLinks {slot : Nat} {ps : List α} :
    (containerLinks isStar slot ps).map Link.slot = List.range' slot ps.length := by
  induction ps generalizing slot with
  | nil => rfl
  | cons p ps ih => simp [ih, List.range'_succ]

theorem length_children_le_width (m : Member α) : m.children.length ≤ m.width := by
  rcases m with (_ | _) | _ | _ <;> simp [Member.children, Member.width]

/-- The slots of the members of a pattern do not overlap. -/
theorem slot_membersLinks {slot : Nat} {ms : List (Member α)} :
    ((membersLinks isStar slot ms).map Link.slot).Pairwise (· < ·) ∧
      ∀ l ∈ membersLinks isStar slot ms, slot ≤ l.slot := by
  induction ms generalizing slot with
  | nil => simp [membersLinks]
  | cons m ms ih =>
    obtain ⟨hpair, hle⟩ := @ih (slot + m.width)
    have hfirst : ∀ l ∈ memberLinks isStar slot m, slot ≤ l.slot ∧ l.slot < slot + m.width := by
      intro l hl
      have hmem := List.mem_map_of_mem (f := Link.slot) hl
      rw [memberLinks_eq_containerLinks, slot_containerLinks, List.mem_range'_1] at hmem
      have := length_children_le_width m
      omega
    refine ⟨?_, ?_⟩
    · rw [membersLinks, List.map_append, List.pairwise_append]
      refine ⟨?_, hpair, ?_⟩
      · rw [memberLinks_eq_containerLinks, slot_containerLinks]
        exact List.pairwise_lt_range'
      · intro a ha b hb
        obtain ⟨l, hl, rfl⟩ := List.mem_map.mp ha
        obtain ⟨l', hl', rfl⟩ := List.mem_map.mp hb
        exact Nat.lt_of_lt_of_le (hfirst l hl).2 (hle l' hl')
    · intro l hl
      rw [membersLinks] at hl
      rcases List.mem_append.mp hl with hl | hl
      · exact (hfirst l hl).1
      · exact Nat.le_of_add_right_le (hle l hl)

/-- The links of a pattern have slots of their own. -/
theorem nodup_slot_query (a : Agent α) : ((a.query isStar).links.map Link.slot).Nodup := by
  have hzip (qs : List α) : ((qs.zipIdx.map fun x =>
      (⟨x.2, x.1, .normal⟩ : Link α)).map Link.slot).Nodup := by
    rw [List.map_map]
    change (qs.zipIdx.map Prod.snd).Nodup
    rw [List.zipIdx_map_snd]
    exact List.nodup_range'
  cases a with
  | standard value members => exact slot_membersLinks.1.imp Nat.ne_of_lt
  | star restriction => cases restriction <;> simp [Agent.query]
  | stuff terminus restriction => cases restriction <;> simp [Agent.query]
  | matchAll qs => exact hzip qs
  | matchAny qs => exact hzip qs
  | _ => simp [Agent.query]

end Members

theorem PatternSet.isDisjunction_pattern {s : Schema} {ps : PatternSet s} (p : PatternId) :
    (ps.pattern p).agent.isDisjunction = (ps.get p).agent.isDisjunction := by
  rw [← Agent.map_val_below p (ps.get p).agent fun _ hc => ps.child_lt_of_mem hc]
  change _ = Agent.isDisjunction (Agent.map Fin.val (ps.pattern p).agent)
  cases (ps.pattern p).agent <;> rfl

/-! ## Decisions -/

/-- A choice among the elements of a list that has `n` of them, without which nothing is given. -/
theorem gives_choose_element {α β : Type} {n : Nat} {k : Nat → Attempt β} {b : β}
    (g : Nat → Option α) (hlt : ∀ i x, g i = some x → i < n)
    (hnone : ∀ i, g i = none → ¬ (k i).Gives b) :
    (Attempt.choose 0 n >>= k).Gives b ↔ ∃ i x, g i = some x ∧ (k i).Gives b := by
  rw [Attempt.gives_bind]
  constructor
  · rintro ⟨i, -, h⟩
    obtain ⟨x, hx⟩ := Option.ne_none_iff_exists'.mp fun hi => hnone i hi h
    exact ⟨i, x, hx, h⟩
  · rintro ⟨i, x, hx, h⟩
    refine ⟨i, Attempt.gives_choose.mpr ?_, h⟩
    have := hlt i x hx
    omega

section Ways

variable {α : Type} {terminus : α} {restriction : Option α} {walk : Array Site}
  {links : List (DecidedLink α)} {path : Option (List Site)} {e : Fault}

theorem gives_stuffLinks : (stuffLinks terminus restriction walk).Gives (links, path) ↔
    ∃ i site, walk[i]? = some site ∧
      links = ⟨0, terminus, .normal, .node site.node⟩ :: (restriction.toList.flatMap fun r =>
        (pathTo walk i).dropLast.map fun above => ⟨1, r, .abnormal, .node above.node⟩) ∧
      path = some (pathTo walk i) := by
  refine (gives_choose_element (fun i => walk[i]?)
    (fun i site h => (Array.getElem?_eq_some_iff.mp h).1) fun i h => by simp [h]).trans ?_
  refine exists_congr fun i => exists_congr fun site => and_congr_right fun h => ?_
  simp [h]

theorem gives_anyNodeLinks : (anyNodeLinks terminus walk).Gives (links, path) ↔
    ∃ i site, walk[i]? = some site ∧ site.parent = some 0 ∧
      links = [⟨0, terminus, .normal, .node site.node⟩] ∧ path = some (pathTo walk i) := by
  unfold anyNodeLinks
  generalize hfilter : List.filter _ walk.toList.zipIdx = below
  have hbelow (i : Nat) (site : Site) :
      (site, i) ∈ below ↔ walk[i]? = some site ∧ site.parent = some 0 := by
    rw [← hfilter, List.mem_filter, List.mem_zipIdx_iff_getElem?]
    simp
  simp only [← and_assoc]
  simp only [← hbelow]
  split
  next hempty =>
    obtain rfl := List.isEmpty_iff.mp hempty
    simp
  next =>
    refine (gives_choose_element (fun i => below[i]?)
      (fun i site h => (List.getElem?_eq_some_iff.mp h).1) fun i h => by simp [h]).trans ?_
    constructor
    · rintro ⟨i, ⟨site, index⟩, h, hgives⟩
      simp only [h, Attempt.gives_pure, Prod.mk.injEq] at hgives
      exact ⟨index, site, ⟨List.mem_iff_getElem?.mpr ⟨i, h⟩, hgives.1⟩, hgives.2⟩
    · rintro ⟨index, site, ⟨hmem, hlinks⟩, hpath⟩
      obtain ⟨i, h⟩ := List.mem_iff_getElem?.mp hmem
      exact ⟨i, (site, index), h, by simp [h, hlinks, hpath]⟩

theorem not_faults_stuffLinks : ¬ (stuffLinks terminus restriction walk).Faults e := by
  intro h
  obtain h | ⟨i, -, h⟩ := Attempt.faults_bind.mp h
  · exact Attempt.faults_choose h
  · split at h <;> simp at h

theorem not_faults_anyNodeLinks : ¬ (anyNodeLinks terminus walk).Faults e := by
  unfold anyNodeLinks
  dsimp only
  generalize List.filter _ walk.toList.zipIdx = below
  split
  · exact Attempt.faults_mismatch
  · intro h
    obtain h | ⟨i, -, h⟩ := Attempt.faults_bind.mp h
    · exact Attempt.faults_choose h
    · split at h <;> simp at h

end Ways

namespace Scene

variable {s : Schema} {scene : Scene s}

/-- A search in a forest over a sound schema, for patterns that fit it. -/
structure WellFormed (scene : Scene s) : Prop where
  schema : s.WellFormed
  forest : scene.forest.WellShaped
  patterns : scene.patterns.WellFormed

/-- What an agent of the pattern `p` may decide on the node `x`: its links and the way down. -/
def Offers (scene : Scene s) (p : PatternId) (x : NodeId) :
    Agent (Fin p) → List (DecidedLink (Fin p)) → Option (List Site) → Prop
  | .standard value members, links, path =>
    (value.isSome → (scene.forest.get x).value = value) ∧
      MembersShare (fun q => scene.patterns.isStar q.val) 0 members
        ((scene.forest.get x).members.take (s.layout (scene.patterns.pattern p).kind).length)
        links ∧
      path = none
  | .star _, _, _ => False
  | .stuff terminus restriction, links, path =>
    ∃ i site, (scene.forest.preorder x)[i]? = some site ∧
      links = ⟨0, terminus, .normal, .node site.node⟩ :: (restriction.toList.flatMap fun r =>
        (pathTo (scene.forest.preorder x) i).dropLast.map fun above =>
          ⟨1, r, .abnormal, .node above.node⟩) ∧
      path = some (pathTo (scene.forest.preorder x) i)
  | .anyNode terminus, links, path =>
    ∃ i site, (scene.forest.preorder x)[i]? = some site ∧ site.parent = some 0 ∧
      links = [⟨0, terminus, .normal, .node site.node⟩] ∧
      path = some (pathTo (scene.forest.preorder x) i)
  | .greenGrass through, links, path =>
    x < scene.watermark ∧ links = [⟨0, through, .normal, .node x⟩] ∧ path = none
  | .overlay through _, links, path | .slave through _, links, path =>
    links = [⟨0, through, .normal, .node x⟩] ∧ path = none
  | .notMatch q, links, path => links = [⟨0, q, .abnormal, .node x⟩] ∧ path = none
  | .matchAll qs, links, path =>
    links = qs.zipIdx.map (fun (q, slot) => ⟨slot, q, .normal, .node x⟩) ∧ path = none
  | .matchAny qs, links, path =>
    ∃ slot q, qs[slot]? = some q ∧ links = [⟨slot, q, .normal, .node x⟩] ∧ path = none

/-- What a pattern may decide when it is held against a key. -/
def Decides (scene : Scene s) (p : PatternId) :
    Key → List (DecidedLink (Fin p)) → Option (List Site) → Prop
  | .node x, links, path =>
    s.isSubkind (scene.forest.kind x) (scene.patterns.pattern p).kind = true ∧
      scene.Offers p x (scene.patterns.pattern p).agent links path
  | .run _ items, links, path =>
    ∃ restriction, (scene.patterns.pattern p).agent = .star restriction ∧
      (∀ x ∈ items, s.isSubkind (scene.forest.kind x) (scene.patterns.pattern p).kind = true) ∧
      links = (restriction.toList.flatMap fun r => items.map fun x => ⟨0, r, .abnormal, .node x⟩) ∧
      path = none

/-- The members of a pattern and of a subject of its kind have the same categories. -/
theorem WellFormed.category_eq (hw : scene.WellFormed) {p : PatternId} {x : NodeId}
    (hk : s.isSubkind (scene.forest.kind x) (scene.patterns.pattern p).kind = true)
    {members : List (Member (Fin p))}
    (hfit : MembersFit (s.layout (scene.patterns.pattern p).kind) members) :
    members.map Member.category = ((scene.forest.get x).members.take
      (s.layout (scene.patterns.pattern p).kind).length).map Member.category :=
  hfit.trans ((hw.forest.get hw.schema x).take (hw.schema.layout_isPrefix hk)).symm

theorem gives_decideNode (hw : scene.WellFormed) {p : PatternId} {x : NodeId}
    {links : List (DecidedLink (Fin p))} {path : Option (List Site)} :
    (scene.decideNode p x).Gives (links, path) ↔ scene.Decides p (.node x) links path := by
  unfold decideNode
  dsimp only
  by_cases hk : s.isSubkind (scene.forest.kind x) (scene.patterns.pattern p).kind = true
  · rw [if_pos hk]
    simp only [Decides, hk, true_and]
    have hfits := hw.patterns.fits hw.schema p
    generalize (scene.patterns.pattern p).agent = agent at hfits
    cases agent with
    | standard value members =>
      simp only [Offers, hw.forest.itemiseAs_eq hw.schema hk]
      split
      next hvalue => simp [hvalue.1, hvalue.2]
      next hvalue =>
        have hsome : value.isSome → (scene.forest.get x).value = value := fun h =>
          not_not.mp fun hne => hvalue ⟨h, hne⟩
        rw [and_iff_right hsome]
        simp [gives_membersDecided (hw.category_eq hk hfits.2.1) hfits.2.2]
    | star restriction => simp [Offers]
    | stuff terminus restriction => exact gives_stuffLinks
    | anyNode terminus => exact gives_anyNodeLinks
    | greenGrass through =>
      simp only [Offers, ← Nat.not_le]
      split <;> simp [*]
    | matchAny qs =>
      refine (gives_choose_element (fun i => qs[i]?)
        (fun i q h => (List.getElem?_eq_some_iff.mp h).1) fun i h => by simp [h]).trans ?_
      refine exists_congr fun slot => exists_congr fun q => and_congr_right fun h => ?_
      simp [h]
    | _ => simp [Offers]
  · rw [if_neg hk]
    simp [Decides, hk]

theorem not_faults_decideNode (hw : scene.WellFormed) {p : PatternId} {x : NodeId} {e : Fault}
    (hstar : scene.patterns.isStar p = false) : ¬ (scene.decideNode p x).Faults e := by
  unfold decideNode
  dsimp only
  by_cases hk : s.isSubkind (scene.forest.kind x) (scene.patterns.pattern p).kind = true
  · rw [if_pos hk]
    have hfits := hw.patterns.fits hw.schema p
    rw [← PatternSet.isStar_pattern] at hstar
    generalize (scene.patterns.pattern p).agent = agent at hfits hstar
    cases agent with
    | standard value members =>
      simp only [hw.forest.itemiseAs_eq hw.schema hk]
      split <;> simp [not_faults_membersDecided (hw.category_eq hk hfits.2.1)]
    | star restriction => cases hstar
    | stuff terminus restriction => exact not_faults_stuffLinks
    | anyNode terminus => exact not_faults_anyNodeLinks
    | greenGrass through => dsimp only; split <;> simp
    | matchAny qs =>
      rintro h
      obtain h | ⟨i, -, h⟩ := Attempt.faults_bind.mp h
      · exact Attempt.faults_choose h
      · split at h <;> simp at h
    | _ => simp
  · rw [if_neg hk]
    simp

theorem gives_decideLinks (hw : scene.WellFormed) {p : PatternId} {key : Key}
    {links : List (DecidedLink (Fin p))} {path : Option (List Site)} :
    (scene.decideLinks p key).Gives (links, path) ↔ scene.Decides p key links path := by
  unfold decideLinks
  split
  next restriction ordered items hagent =>
    dsimp only
    split
    next hall => simp_all [Decides]
    next hall =>
      refine iff_of_false Attempt.gives_mismatch ?_
      rintro ⟨restriction', -, hkind, -⟩
      exact hall (List.all_eq_true.mpr hkind)
  next restriction x hagent => simp [Decides, hagent, Offers]
  next ordered items hagent =>
    refine iff_of_false Attempt.gives_fault ?_
    rintro ⟨restriction, hstar, -⟩
    exact hagent restriction hstar
  next x hagent => exact gives_decideNode hw

theorem decide_eq (p : PatternId) (key : Key) : scene.decide p key =
    Walk.padTo (scene.patterns.query p).decisions (scene.decideLinks p key >>= fun r =>
      pure ⟨r.1, (scene.patterns.query p).evaluator, r.2⟩ : Attempt (Decided (Fin p))) := rfl

theorem gives_decide (hw : scene.WellFormed) {p : PatternId} {key : Key} {d : Decided (Fin p)} :
    (scene.decide p key).Gives d ↔
      scene.Decides p key d.links d.path ∧ d.evaluator = (scene.patterns.query p).evaluator := by
  rw [decide_eq, Attempt.gives_padTo, Attempt.gives_bind]
  constructor
  · rintro ⟨⟨links, path⟩, h, hd⟩
    obtain rfl := Attempt.gives_pure.mp hd
    exact ⟨(gives_decideLinks hw).mp h, rfl⟩
  · rintro ⟨h, hd⟩
    refine ⟨(d.links, d.path), (gives_decideLinks hw).mpr h, Attempt.gives_pure.mpr ?_⟩
    rw [← hd]

/-- Whether a key has the shape that the pattern `p` takes: a run for a star, a node for another. -/
def Takes (scene : Scene s) (p : PatternId) : Key → Prop
  | .node _ => scene.patterns.isStar p = false
  | .run .. => scene.patterns.isStar p = true

theorem not_faults_decide (hw : scene.WellFormed) {p : PatternId} {key : Key} {e : Fault}
    (htakes : scene.Takes p key) : ¬ (scene.decide p key).Faults e := by
  have hlinks : ¬ (scene.decideLinks p key).Faults e := by
    have hstar := scene.patterns.isStar_pattern p
    unfold decideLinks
    split
    next => dsimp only; split <;> simp
    next restriction x hagent =>
      rw [hagent, htakes] at hstar
      cases hstar
    next ordered items hagent =>
      rw [htakes] at hstar
      cases h : (scene.patterns.pattern p).agent with
      | star restriction => exact (hagent restriction h).elim
      | _ => simp [h, Agent.isStar] at hstar
    next x hagent => exact not_faults_decideNode hw htakes
  rw [decide_eq, Attempt.faults_padTo]
  simp [hlinks]

/-! ## What is declared is decided -/

section Decides

variable {p : PatternId} {key : Key} {links : List (DecidedLink (Fin p))}
  {path : Option (List Site)}

/-- The decided links that are not abnormal are those declared so, but of a disjunction. -/
theorem Decides.declared_perm (hw : scene.WellFormed) (h : scene.Decides p key links path)
    (hd : (scene.patterns.pattern p).agent.isDisjunction = false) :
    ((links.filter fun l => l.kind ≠ .abnormal).map DecidedLink.declared).Perm
      ((scene.patterns.query p).links.filter fun l => l.kind ≠ .abnormal) := by
  have hfits := hw.patterns.fits hw.schema p
  rw [PatternSet.query]
  cases key with
  | run ordered items =>
    obtain ⟨restriction, hagent, -, rfl, -⟩ := h
    rw [hagent]
    cases restriction <;> simp [Agent.query, List.filter_map, Function.comp_def]
  | node x =>
    have h := h.2
    generalize (scene.patterns.pattern p).agent = agent at hfits h hd
    cases agent with
    | standard value members =>
      have hfilter : (links.filter fun l => l.kind ≠ .abnormal).map DecidedLink.declared =
          (links.map DecidedLink.declared).filter fun l => l.kind ≠ .abnormal := by
        rw [List.filter_map]
        rfl
      rw [hfilter]
      exact (h.2.1.declared_perm hfits.2.2).filter _
    | star restriction => exact h.elim
    | stuff terminus restriction =>
      obtain ⟨i, site, -, rfl, -⟩ := h
      cases restriction <;> simp [Agent.query, DecidedLink.declared, -List.map_dropLast]
    | anyNode terminus =>
      obtain ⟨i, site, -, -, rfl, -⟩ := h
      simp [Agent.query, DecidedLink.declared]
    | greenGrass through =>
      obtain ⟨-, rfl, -⟩ := h
      simp [Agent.query, DecidedLink.declared]
    | matchAll qs =>
      obtain ⟨rfl, -⟩ := h
      simp [Agent.query, DecidedLink.declared, List.filter_map, Function.comp_def]
    | matchAny qs => cases hd
    | _ =>
      obtain ⟨rfl, -⟩ := h
      simp [Agent.query, DecidedLink.declared]

/-- A disjunction decides for one of the links that it declares. -/
theorem Decides.eq_singleton (h : scene.Decides p key links path)
    (hd : (scene.patterns.pattern p).agent.isDisjunction = true) :
    ∃ l, links = [l] ∧ l.kind = .normal ∧ l.declared ∈ (scene.patterns.query p).links := by
  rw [PatternSet.query]
  cases key with
  | run ordered items =>
    obtain ⟨restriction, hagent, -⟩ := h
    rw [hagent] at hd
    cases hd
  | node x =>
    have h := h.2
    generalize (scene.patterns.pattern p).agent = agent at h hd
    cases agent with
    | matchAny qs =>
      obtain ⟨slot, q, hq, rfl, -⟩ := h
      refine ⟨_, rfl, rfl, ?_⟩
      simp [Agent.query, DecidedLink.declared, List.mem_zipIdx_iff_getElem?, hq]
    | _ => cases hd

/-- Every decided link is declared. -/
theorem Decides.declared_mem (hw : scene.WellFormed) (h : scene.Decides p key links path)
    {l : DecidedLink (Fin p)} (hl : l ∈ links) : l.declared ∈ (scene.patterns.query p).links := by
  have hfits := hw.patterns.fits hw.schema p
  rw [PatternSet.query]
  cases key with
  | run ordered items =>
    obtain ⟨restriction, hagent, -, rfl, -⟩ := h
    rw [hagent]
    cases restriction with
    | none => simp at hl
    | some r =>
      obtain ⟨x, -, rfl⟩ : ∃ x ∈ items, _ = l := by simpa using hl
      simp [Agent.query, DecidedLink.declared]
  | node x =>
    have h := h.2
    generalize (scene.patterns.pattern p).agent = agent at hfits h
    cases agent with
    | standard value members =>
      exact (h.2.1.declared_perm hfits.2.2).mem_iff.mp (List.mem_map_of_mem hl)
    | star restriction => exact h.elim
    | stuff terminus restriction =>
      obtain ⟨i, site, -, rfl, -⟩ := h
      rcases List.mem_cons.mp hl with rfl | hl
      · simp [Agent.query, DecidedLink.declared]
      · simp only [List.mem_flatMap, List.mem_map] at hl
        obtain ⟨r, hr, above, -, rfl⟩ := hl
        simpa [Agent.query, DecidedLink.declared] using hr
    | anyNode terminus =>
      obtain ⟨i, site, -, -, rfl, -⟩ := h
      simp_all [Agent.query, DecidedLink.declared]
    | greenGrass through =>
      obtain ⟨-, rfl, -⟩ := h
      simp_all [Agent.query, DecidedLink.declared]
    | matchAll qs =>
      obtain ⟨rfl, -⟩ := h
      obtain ⟨⟨q, slot⟩, hq, rfl⟩ := List.mem_map.mp hl
      exact List.mem_map.mpr ⟨(q, slot), hq, rfl⟩
    | matchAny qs =>
      obtain ⟨slot, q, hq, rfl, -⟩ := h
      simp_all [Agent.query, DecidedLink.declared, List.mem_zipIdx_iff_getElem?]
    | _ =>
      obtain ⟨rfl, -⟩ := h
      simp_all [Agent.query, DecidedLink.declared]

/-- The key of a decided link has the shape that its target takes. -/
theorem Decides.shaped (hw : scene.WellFormed) (h : scene.Decides p key links path)
    {l : DecidedLink (Fin p)} (hl : l ∈ links) :
    l.Shaped fun q => scene.patterns.isStar q.val := by
  have hfits := hw.patterns.fits hw.schema p
  cases key with
  | run ordered items =>
    obtain ⟨restriction, hagent, -, rfl, -⟩ := h
    rw [hagent] at hfits
    cases restriction with
    | none => simp at hl
    | some r =>
      obtain ⟨x, -, rfl⟩ : ∃ x ∈ items, _ = l := by simpa using hl
      exact ⟨by simp, hfits r (by simp [Agent.children])⟩
  | node x =>
    have h := h.2
    generalize (scene.patterns.pattern p).agent = agent at hfits h
    cases agent with
    | standard value members => exact h.2.1.shaped hfits.2.2 l hl
    | star restriction => exact h.elim
    | stuff terminus restriction =>
      obtain ⟨i, site, -, rfl, -⟩ := h
      rcases List.mem_cons.mp hl with rfl | hl
      · exact ⟨by simp, hfits _ (by simp [Agent.children])⟩
      · simp only [List.mem_flatMap, List.mem_map] at hl
        obtain ⟨r, hr, above, -, rfl⟩ := hl
        exact ⟨by simp, hfits r (List.mem_cons_of_mem _ hr)⟩
    | anyNode terminus =>
      obtain ⟨i, site, -, -, rfl, -⟩ := h
      obtain rfl := List.mem_singleton.mp hl
      exact ⟨by simp, hfits _ (by simp [Agent.children])⟩
    | greenGrass through =>
      obtain ⟨-, rfl, -⟩ := h
      obtain rfl := List.mem_singleton.mp hl
      exact ⟨by simp, hfits _ (by simp [Agent.children])⟩
    | matchAll qs =>
      obtain ⟨rfl, -⟩ := h
      obtain ⟨⟨q, slot⟩, hq, rfl⟩ := List.mem_map.mp hl
      exact ⟨by simp, hfits q (List.fst_mem_of_mem_zipIdx hq)⟩
    | matchAny qs =>
      obtain ⟨slot, q, hq, rfl, -⟩ := h
      obtain rfl := List.mem_singleton.mp hl
      exact ⟨by simp, hfits.2 q (List.mem_of_getElem? hq)⟩
    | _ =>
      obtain ⟨rfl, -⟩ := h
      obtain rfl := List.mem_singleton.mp hl
      exact ⟨by simp, hfits _ (by simp [Agent.children])⟩

/-- Unless the pattern is a disjunction, a declared link is decided if it is not abnormal. -/
theorem Decides.exists_declared (hw : scene.WellFormed) (h : scene.Decides p key links path)
    (hd : (scene.patterns.pattern p).agent.isDisjunction = false) {l : Link (Fin p)}
    (hl : l ∈ (scene.patterns.query p).links) (hk : l.kind ≠ .abnormal) :
    ∃ d ∈ links, d.declared = l := by
  have hmem := (h.declared_perm hw hd).mem_iff.mpr (List.mem_filter.mpr ⟨hl, by simpa using hk⟩)
  obtain ⟨d, hd, rfl⟩ := List.mem_map.mp hmem
  exact ⟨d, (List.mem_filter.mp hd).1, rfl⟩

/-- A star decides on abnormal links only, and on no way. -/
theorem Decides.abnormal_of_isStar (h : scene.Decides p key links path)
    (hstar : scene.patterns.isStar p = true) : path = none ∧ ∀ l ∈ links, l.kind = .abnormal := by
  cases key with
  | run ordered items =>
    obtain ⟨restriction, -, -, rfl, rfl⟩ := h
    refine ⟨rfl, fun l hl => ?_⟩
    obtain ⟨r, -, hl⟩ := List.mem_flatMap.mp hl
    obtain ⟨x, -, rfl⟩ := List.mem_map.mp hl
    rfl
  | node x =>
    have h := h.2
    rw [← PatternSet.isStar_pattern] at hstar
    generalize (scene.patterns.pattern p).agent = agent at h hstar
    cases agent with
    | star restriction => exact h.elim
    | _ => cases hstar

end Decides

end Scene

end Espalier
