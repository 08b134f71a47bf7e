import Espalier.Search.Query
import Espalier.Proofs.Backtracking
import Mathlib.Data.List.Perm.Basic

/-!
# How containers are shared out

The links that a container of a pattern may give to the elements of a subject's container, said
without choices.  A sequence is cut into one run for each star and one element for each other
pattern; from a collection each pattern that is no star takes an element and a star takes what they
leave.
-/

namespace Espalier

variable {α : Type} {isStar : α → Bool}

/-- A decided link without what its target has to match. -/
def DecidedLink.declared (l : DecidedLink α) : Link α := ⟨l.slot, l.target, l.kind⟩

/-- The links from `slot` on of the patterns in a container. -/
def containerLinks (isStar : α → Bool) (slot : Nat) (ps : List α) : List (Link α) :=
  memberLinks isStar slot (.sequence ps)

@[simp] theorem containerLinks_nil (slot : Nat) : containerLinks isStar slot [] = [] := rfl

@[simp] theorem containerLinks_cons (slot : Nat) (p : α) (ps : List α) :
    containerLinks isStar slot (p :: ps) =
      ⟨slot, p, if isStar p then .multiplicity else .normal⟩ ::
        containerLinks isStar (slot + 1) ps := by
  simp only [containerLinks, memberLinks, Member.children, List.zipIdx_cons', List.map_cons,
    List.map_map, Nat.add_zero, List.cons.injEq, true_and]
  refine List.map_congr_left fun x _ => ?_
  simp [Nat.add_comm, Nat.add_left_comm]

/-! ## Sequences -/

/-- `links` cut `xs` into one part for each pattern: a run for a star, an element for another. -/
inductive SequenceSplit (isStar : α → Bool) :
    Nat → List α → List NodeId → List (DecidedLink α) → Prop where
  | nil {slot : Nat} : SequenceSplit isStar slot [] [] []
  | star {slot : Nat} {p : α} {ps : List α} {run xs : List NodeId} {links : List (DecidedLink α)}
      (hp : isStar p = true) (h : SequenceSplit isStar (slot + 1) ps xs links) :
      SequenceSplit isStar slot (p :: ps) (run ++ xs)
        (⟨slot, p, .multiplicity, .run true run⟩ :: links)
  | one {slot : Nat} {p : α} {ps : List α} {x : NodeId} {xs : List NodeId}
      {links : List (DecidedLink α)} (hp : isStar p = false)
      (h : SequenceSplit isStar (slot + 1) ps xs links) :
      SequenceSplit isStar slot (p :: ps) (x :: xs) (⟨slot, p, .normal, .node x⟩ :: links)

namespace SequenceSplit

variable {slot : Nat} {ps : List α} {xs : List NodeId} {links : List (DecidedLink α)}

/-- A sequence has an element for every pattern that is no star. -/
theorem room_le (h : SequenceSplit isStar slot ps xs links) :
    (ps.filter fun q => !isStar q).length ≤ xs.length := by
  induction h with
  | nil => exact Nat.le_refl _
  | star hp _ ih =>
    simp only [List.filter_cons, hp, Bool.not_true, Bool.false_eq_true,
      if_false, List.length_append]
    omega
  | one hp _ ih =>
    simp only [List.filter_cons, hp, Bool.not_false, if_true, List.length_cons]
    omega

theorem declared_eq (h : SequenceSplit isStar slot ps xs links) :
    links.map DecidedLink.declared = containerLinks isStar slot ps := by
  induction h with
  | nil => rfl
  | star hp _ ih => simp [DecidedLink.declared, hp, ih]
  | one hp _ ih => simp [DecidedLink.declared, hp, ih]

end SequenceSplit

theorem sequenceSplit_of_gives {slot used : Nat} {ps : List α} {xs : List NodeId}
    {links : List (DecidedLink α)} (h : (sequenceLinks isStar slot used ps xs).Gives links) :
    SequenceSplit isStar slot ps xs links := by
  induction ps generalizing slot used xs links with
  | nil =>
    cases xs with
    | nil =>
      obtain rfl := Attempt.gives_pure.mp h
      exact .nil
    | cons x xs => exact (Attempt.gives_mismatch h).elim
  | cons p ps ih =>
    rw [sequenceLinks.eq_def] at h
    dsimp only at h
    split at h
    next hp =>
      split at h
      next hps =>
        obtain rfl := Attempt.gives_pure.mp h
        obtain rfl := List.isEmpty_iff.mp hps
        have hsplit : SequenceSplit isStar slot [p] (xs ++ []) _ := .star hp .nil
        rwa [List.append_nil] at hsplit
      next =>
        split at h
        next hroom =>
          simp only [Attempt.gives_bind, Attempt.gives_pure] at h
          obtain ⟨stop, _, rest, hrest, rfl⟩ := h
          have hsplit : SequenceSplit isStar slot (p :: ps)
              (xs.take (stop - used) ++ xs.drop (stop - used)) _ := .star hp (ih hrest)
          rwa [List.take_append_drop] at hsplit
        next => exact (Attempt.gives_mismatch h).elim
    next hp =>
      split at h
      next => exact (Attempt.gives_mismatch h).elim
      next x xs =>
        simp only [Attempt.gives_bind, Attempt.gives_pure] at h
        obtain ⟨rest, hrest, rfl⟩ := h
        exact .one (Bool.eq_false_iff.mpr hp) (ih hrest)

theorem gives_of_sequenceSplit {slot : Nat} {ps : List α} {xs : List NodeId}
    {links : List (DecidedLink α)} (h : SequenceSplit isStar slot ps xs links) (used : Nat) :
    (sequenceLinks isStar slot used ps xs).Gives links := by
  induction h generalizing used with
  | nil => exact Attempt.gives_pure.mpr rfl
  | @star slot p ps run xs links hp h ih =>
    rw [sequenceLinks.eq_def]
    dsimp only
    rw [if_pos hp]
    split
    next hps =>
      -- A star at the end takes all that is left.
      obtain rfl := List.isEmpty_iff.mp hps
      cases h
      simp
    next =>
      have hroom := h.room_le
      rw [if_pos (by simp only [List.length_append]; omega)]
      simp only [Attempt.gives_bind, Attempt.gives_pure]
      refine ⟨used + run.length, ?_, links, ?_, ?_⟩
      · simp only [Attempt.gives_choose, List.length_append]
        omega
      · rw [Nat.add_sub_cancel_left, List.drop_left]
        exact ih _
      · rw [Nat.add_sub_cancel_left, List.take_left]
  | @one slot p ps x xs links hp h ih =>
    rw [sequenceLinks.eq_def]
    dsimp only
    rw [if_neg (by simp [hp])]
    simp only [Attempt.gives_bind, Attempt.gives_pure]
    exact ⟨links, ih _, rfl⟩

/-- The links that a sequence may decide on are the ways to cut it. -/
theorem gives_sequenceLinks {slot used : Nat} {ps : List α} {xs : List NodeId}
    {links : List (DecidedLink α)} :
    (sequenceLinks isStar slot used ps xs).Gives links ↔ SequenceSplit isStar slot ps xs links :=
  ⟨sequenceSplit_of_gives, fun h => gives_of_sequenceSplit h used⟩

theorem not_faults_sequenceLinks {slot used : Nat} {ps : List α} {xs : List NodeId} {e : Fault} :
    ¬ (sequenceLinks isStar slot used ps xs).Faults e := by
  induction ps generalizing slot used xs with
  | nil => cases xs <;> simp [sequenceLinks]
  | cons p ps ih =>
    rw [sequenceLinks.eq_def]
    dsimp only
    split
    · split
      · simp
      · split
        · simp [ih]
        · simp
    · split
      · simp
      · simp [ih]

/-! ## Collections -/

/-- `links` give an element of `xs` to each pattern that is no star, and `rest` is left over. -/
inductive Assigned (isStar : α → Bool) :
    Nat → List α → List NodeId → List (DecidedLink α) → List NodeId → Prop where
  | nil {slot : Nat} {xs : List NodeId} : Assigned isStar slot [] xs [] xs
  | star {slot : Nat} {p : α} {ps : List α} {xs rest : List NodeId} {links : List (DecidedLink α)}
      (hp : isStar p = true) (h : Assigned isStar (slot + 1) ps xs links rest) :
      Assigned isStar slot (p :: ps) xs links rest
  | one {slot : Nat} {p : α} {ps : List α} {xs rest : List NodeId} {x : NodeId} {i : Nat}
      {links : List (DecidedLink α)} (hp : isStar p = false) (hi : xs[i]? = some x)
      (h : Assigned isStar (slot + 1) ps (xs.eraseIdx i) links rest) :
      Assigned isStar slot (p :: ps) xs (⟨slot, p, .normal, .node x⟩ :: links) rest

/-- `links` share `xs` out: to each pattern an element, and to the star, if there is one, the
rest. -/
inductive CollectionShare (isStar : α → Bool) (slot : Nat) (ps : List α) (xs : List NodeId) :
    List (DecidedLink α) → Prop where
  | full {links : List (DecidedLink α)} (hps : ∀ p ∈ ps, isStar p = false)
      (h : Assigned isStar slot ps xs links []) : CollectionShare isStar slot ps xs links
  | rest {before after : List α} {star : α} {rest : List NodeId} {links : List (DecidedLink α)}
      (hps : ps = before ++ star :: after) (hstar : isStar star = true)
      (hbefore : ∀ p ∈ before, isStar p = false) (hafter : ∀ p ∈ after, isStar p = false)
      (h : Assigned isStar slot ps xs links rest) :
      CollectionShare isStar slot ps xs
        (links ++ [⟨slot + before.length, star, .multiplicity, .run false rest⟩])

theorem perm_eraseIdx {xs : List NodeId} {i : Nat} {x : NodeId} (h : xs[i]? = some x) :
    (x :: xs.eraseIdx i).Perm xs := by
  obtain ⟨hi, rfl⟩ := List.getElem?_eq_some_iff.mp h
  exact List.getElem_cons_eraseIdx_perm hi

namespace Assigned

variable {slot : Nat} {ps : List α} {xs rest : List NodeId} {links : List (DecidedLink α)}

/-- The elements given away and those left over make up the collection. -/
theorem nodes_perm (h : Assigned isStar slot ps xs links rest) :
    (links.flatMap (fun l => l.key.nodes) ++ rest).Perm xs := by
  induction h with
  | nil => exact List.Perm.refl _
  | star _ _ ih => exact ih
  | one _ hi _ ih => exact (ih.cons _).trans (perm_eraseIdx hi)

theorem length_eq (h : Assigned isStar slot ps xs links rest) :
    (ps.filter fun q => !isStar q).length + rest.length = xs.length := by
  induction h with
  | nil => simp
  | star hp _ ih => simpa [List.filter_cons, hp] using ih
  | one hp hi _ ih =>
    have := (perm_eraseIdx hi).length_eq
    simp only [List.filter_cons, hp, Bool.not_false, if_true, List.length_cons] at this ⊢
    omega

theorem declared_eq (h : Assigned isStar slot ps xs links rest) :
    links.map DecidedLink.declared =
      (containerLinks isStar slot ps).filter fun l => l.kind = .normal := by
  induction h with
  | nil => rfl
  | star hp _ ih => simp [hp, ih]
  | one hp _ _ ih => simp [DecidedLink.declared, hp, ih]

end Assigned

theorem gives_assign {slot : Nat} {ps : List α} {xs rest : List NodeId}
    {links : List (DecidedLink α)} :
    (assign isStar slot ps xs).Gives (links, rest) ↔ Assigned isStar slot ps xs links rest := by
  induction ps generalizing slot xs links with
  | nil =>
    constructor
    · intro h
      obtain ⟨rfl, rfl⟩ := Prod.mk.inj (Attempt.gives_pure.mp h)
      exact .nil
    · rintro ⟨⟩
      exact Attempt.gives_pure.mpr rfl
  | cons p ps ih =>
    rw [assign]
    by_cases hp : isStar p = true
    · rw [if_pos hp, ih]
      constructor
      · exact .star hp
      · intro h
        cases h with
        | star _ h => exact h
        | one hp' => simp [hp] at hp'
    · rw [if_neg hp, Attempt.gives_bind]
      constructor
      · rintro ⟨i, _, h⟩
        split at h
        next => exact (Attempt.gives_mismatch h).elim
        next x hx =>
          simp only [Attempt.gives_bind, Attempt.gives_pure] at h
          obtain ⟨⟨links', rest'⟩, h, hpair⟩ := h
          obtain ⟨rfl, rfl⟩ := Prod.mk.inj hpair
          exact .one (Bool.eq_false_iff.mpr hp) hx (ih.mp h)
      · intro h
        cases h with
        | star hp' => exact (hp hp').elim
        | @one _ _ _ _ _ x i _ _ hi h =>
          refine ⟨i, ?_, ?_⟩
          · have := (List.getElem?_eq_some_iff.mp hi).1
            rw [Attempt.gives_choose]
            omega
          · rw [hi]
            simp only [Attempt.gives_bind, Attempt.gives_pure]
            exact ⟨(_, rest), ih.mpr h, rfl⟩

theorem not_faults_assign {slot : Nat} {ps : List α} {xs : List NodeId} {e : Fault} :
    ¬ (assign isStar slot ps xs).Faults e := by
  induction ps generalizing slot xs with
  | nil => simp [assign]
  | cons p ps ih =>
    rw [assign]
    split
    · exact ih
    · rw [Attempt.faults_bind]
      rintro (h | ⟨i, _, h⟩)
      · exact Attempt.faults_choose h
      · split at h
        · exact Attempt.faults_mismatch h
        · simp [ih] at h

theorem find?_zipIdx_eq_none {ps : List α} {k : Nat}
    (h : (ps.zipIdx k).find? (fun (p, _) => isStar p) = none) : ∀ p ∈ ps, isStar p = false := by
  intro p hp
  obtain ⟨i, hi, rfl⟩ := List.mem_iff_getElem.mp hp
  simpa using List.find?_eq_none.mp h (ps[i], k + i)
    (List.mk_add_mem_zipIdx_iff_getElem?.mpr (by simp [hi]))

theorem find?_zipIdx_eq_some {ps : List α} {k i : Nat} {star : α}
    (h : (ps.zipIdx k).find? (fun (p, _) => isStar p) = some (star, i)) :
    ∃ before after, ps = before ++ star :: after ∧ i = k + before.length ∧ isStar star = true ∧
      ∀ p ∈ before, isStar p = false := by
  induction ps generalizing k with
  | nil => simp at h
  | cons p ps ih =>
    rw [List.zipIdx_cons, List.find?_cons] at h
    split at h
    next hp =>
      obtain ⟨rfl, rfl⟩ := Prod.mk.inj (Option.some.inj h)
      exact ⟨[], ps, rfl, rfl, hp, by simp⟩
    next hp =>
      obtain ⟨before, after, rfl, rfl, hstar, hbefore⟩ := ih h
      refine ⟨p :: before, after, rfl, by simp only [List.length_cons]; omega, hstar, ?_⟩
      rintro q (_ | ⟨_, hq⟩)
      · exact hp
      · exact hbefore q hq

theorem find?_zipIdx_append {before after : List α} {star : α} (k : Nat)
    (hbefore : ∀ p ∈ before, isStar p = false) (hstar : isStar star = true) :
    ((before ++ star :: after).zipIdx k).find? (fun (p, _) => isStar p) =
      some (star, k + before.length) := by
  induction before generalizing k with
  | nil => simp [hstar]
  | cons p before ih =>
    have hp : isStar p = false := hbefore p (by simp)
    rw [List.cons_append, List.zipIdx_cons, List.find?_cons_of_neg (by simp [hp]),
      ih (k + 1) fun q hq => hbefore q (by simp [hq])]
    simp only [List.length_cons, Option.some.injEq, Prod.mk.injEq, true_and]
    omega

/-- The only star among the patterns, and where it is. -/
theorem find?_zipIdx_sole {ps : List α} {i : Nat} {star : α}
    (hstars : (ps.filter isStar).length ≤ 1)
    (h : ps.zipIdx.find? (fun (p, _) => isStar p) = some (star, i)) :
    ∃ before after, ps = before ++ star :: after ∧ i = before.length ∧ isStar star = true ∧
      (∀ p ∈ before, isStar p = false) ∧ ∀ p ∈ after, isStar p = false := by
  obtain ⟨before, after, rfl, rfl, hstar, hbefore⟩ := find?_zipIdx_eq_some h
  refine ⟨before, after, rfl, Nat.zero_add _, hstar, hbefore, ?_⟩
  simp only [List.filter_append, List.filter_cons, hstar, if_true, List.length_append,
    List.length_cons] at hstars
  have hnil : after.filter isStar = [] := List.length_eq_zero_iff.mp (by omega)
  simpa [List.filter_eq_nil_iff] using hnil

theorem CollectionShare.of_assigned {slot : Nat} {ps : List α} {xs rest : List NodeId}
    {links : List (DecidedLink α)} (hps : ∀ p ∈ ps, isStar p = false) (hlen : xs.length = ps.length)
    (h : Assigned isStar slot ps xs links rest) : CollectionShare isStar slot ps xs links := by
  have hlength := h.length_eq
  rw [List.filter_eq_self.mpr (by simpa using hps), hlen] at hlength
  obtain rfl : rest = [] := List.length_eq_zero_iff.mp (by omega)
  exact .full hps h

/-- With at most one star, the links that a collection may decide on are the ways to share it
out. -/
theorem gives_collectionLinks {slot : Nat} {ps : List α} {xs : List NodeId}
    {links : List (DecidedLink α)} (hstars : (ps.filter isStar).length ≤ 1) :
    (collectionLinks isStar slot ps xs).Gives links ↔ CollectionShare isStar slot ps xs links := by
  constructor
  · intro h
    unfold collectionLinks at h
    split at h
    next hfind =>
      split at h
      next hlen =>
        simp only [Attempt.gives_bind, Attempt.gives_pure] at h
        obtain ⟨⟨links, rest⟩, hassign, rfl⟩ := h
        exact .of_assigned (find?_zipIdx_eq_none hfind) hlen (gives_assign.mp hassign)
      next => exact (Attempt.gives_mismatch h).elim
    next star i hfind =>
      obtain ⟨before, after, rfl, rfl, hstar, hbefore, hafter⟩ := find?_zipIdx_sole hstars hfind
      split at h
      next =>
        simp only [Attempt.gives_bind, Attempt.gives_pure] at h
        obtain ⟨⟨links, rest⟩, hassign, rfl⟩ := h
        exact CollectionShare.rest rfl hstar hbefore hafter (gives_assign.mp hassign)
      next => exact (Attempt.gives_mismatch h).elim
  · intro h
    unfold collectionLinks
    cases h with
    | full hps h =>
      have hfind : ps.zipIdx.find? (fun (p, _) => isStar p) = none := by
        rw [List.find?_eq_none]
        rintro ⟨p, i⟩ hp
        simp [hps p (List.fst_mem_of_mem_zipIdx hp)]
      have hlength := h.length_eq
      rw [List.filter_eq_self.mpr (by simpa using hps)] at hlength
      rw [hfind]
      dsimp only
      rw [if_pos (by simpa using hlength.symm)]
      simp only [Attempt.gives_bind, Attempt.gives_pure]
      exact ⟨(links, []), gives_assign.mpr h, rfl⟩
    | @rest before after star rest links hps hstar hbefore hafter h =>
      have hlength := h.length_eq
      subst hps
      have hfilter : (before ++ star :: after).filter (fun q => !isStar q) = before ++ after := by
        rw [List.filter_append, List.filter_cons_of_neg (by simp [hstar]),
          List.filter_eq_self.mpr (by simpa using hbefore),
          List.filter_eq_self.mpr (by simpa using hafter)]
      rw [hfilter] at hlength
      rw [find?_zipIdx_append 0 hbefore hstar]
      dsimp only
      rw [if_pos (by simp only [List.length_append, List.length_cons] at hlength ⊢; omega)]
      simp only [Attempt.gives_bind, Attempt.gives_pure]
      exact ⟨(links, rest), gives_assign.mpr h, by simp⟩

theorem not_faults_collectionLinks {slot : Nat} {ps : List α} {xs : List NodeId} {e : Fault} :
    ¬ (collectionLinks isStar slot ps xs).Faults e := by
  unfold collectionLinks
  split
  · split
    · simp [not_faults_assign]
    · simp
  · split
    · simp [not_faults_assign]
    · simp

namespace CollectionShare

variable {slot : Nat} {ps : List α} {xs : List NodeId} {links : List (DecidedLink α)}

theorem nodes_perm (h : CollectionShare isStar slot ps xs links) :
    (links.flatMap (fun l => l.key.nodes)).Perm xs := by
  cases h with
  | full _ h => simpa using h.nodes_perm
  | rest _ _ _ _ h => simpa using h.nodes_perm

theorem containerLinks_eq_normal {slot : Nat} {ps : List α} (hps : ∀ p ∈ ps, isStar p = false) :
    ∀ l ∈ containerLinks isStar slot ps, l.kind = .normal := by
  induction ps generalizing slot with
  | nil => simp
  | cons p ps ih =>
    intro l hl
    rw [containerLinks_cons] at hl
    rcases List.mem_cons.mp hl with rfl | hl
    · simp [hps p (by simp)]
    · exact ih (fun q hq => hps q (by simp [hq])) l hl

theorem containerLinks_append {slot : Nat} {ps qs : List α} :
    containerLinks isStar slot (ps ++ qs) =
      containerLinks isStar slot ps ++ containerLinks isStar (slot + ps.length) qs := by
  induction ps generalizing slot with
  | nil => rfl
  | cons p ps ih => simp [ih, Nat.add_comm, Nat.add_left_comm]

/-- Every link of the collection is decided once, that of the star last. -/
theorem declared_perm (h : CollectionShare isStar slot ps xs links) :
    (links.map DecidedLink.declared).Perm (containerLinks isStar slot ps) := by
  cases h with
  | full hps h =>
    rw [h.declared_eq, List.filter_eq_self.mpr (by simpa using containerLinks_eq_normal hps)]
  | @rest before after star rest links hps hstar hbefore hafter h =>
    rw [List.map_append, h.declared_eq, hps, containerLinks_append, containerLinks_cons,
      List.filter_append, List.filter_cons_of_neg (by simp [hstar]),
      List.filter_eq_self.mpr (by simpa using containerLinks_eq_normal hbefore),
      List.filter_eq_self.mpr (by simpa using containerLinks_eq_normal hafter), List.append_assoc]
    simp only [hstar, if_true]
    exact (List.perm_append_singleton _ _).append_left _

end CollectionShare

/-! ## Members -/

/-- `links` hold one member of a pattern against one of a subject. -/
def MemberShare (isStar : α → Bool) (slot : Nat) :
    Member α → Member NodeId → List (DecidedLink α) → Prop
  | .single none, .single _, links => links = []
  | .single (some p), .single (some c), links => links = [⟨slot, p, .normal, .node c⟩]
  | .sequence ps, .sequence xs, links => SequenceSplit isStar slot ps xs links
  | .collection ps, .collection xs, links => CollectionShare isStar slot ps xs links
  | _, _, _ => False

/-- `links` hold the members of a pattern against those of a subject, one by one. -/
inductive MembersShare (isStar : α → Bool) :
    Nat → List (Member α) → List (Member NodeId) → List (DecidedLink α) → Prop where
  | nil {slot : Nat} : MembersShare isStar slot [] [] []
  | cons {slot : Nat} {m : Member α} {x : Member NodeId} {ms : List (Member α)}
      {xs : List (Member NodeId)} {links rest : List (DecidedLink α)}
      (h : MemberShare isStar slot m x links)
      (hrest : MembersShare isStar (slot + m.width) ms xs rest) :
      MembersShare isStar slot (m :: ms) (x :: xs) (links ++ rest)

end Espalier
