import Espalier.Proofs.Lexicographic
import Espalier.Proofs.Shares
import Mathlib.Data.List.InsertIdx
import Mathlib.Data.List.Nodup

/-!
# Assignments of a collection

From a collection each pattern that is no star picks an element.  A choice is a place among the
elements that are left, so that what it stands for depends on the choices before it.  `picked` reads
the positions in the whole collection off the choices, and on them the choices of `collectionLinks`
are in bijection with the assignments of different positions to the patterns.  Positions are counted
and not elements, which may be equal.
-/

namespace Espalier

variable {α : Type} {isStar : α → Bool}

/-- What `choices` pick one after the other: each is a place among what is left by then. -/
def picked : (left choices : List Nat) → List Nat
  | _, [] => []
  | left, i :: choices =>
    match left[i]? with
    | none => []
    | some k => k :: picked (left.eraseIdx i) choices

/-- Each of the choices is a place among what is left by then, if there are `n` at first. -/
def WithinLeft : (n : Nat) → (choices : List Nat) → Prop
  | _, [] => True
  | n, i :: choices => i < n ∧ WithinLeft (n - 1) choices

section Picking

variable {left choices choices' ks : List Nat} {i k : Nat}

theorem picked_cons (h : left[i]? = some k) :
    picked left (i :: choices) = k :: picked (left.eraseIdx i) choices := by
  rw [picked, h]

theorem withinLeft_eraseIdx (h : i < left.length) :
    WithinLeft (left.length - 1) choices ↔ WithinLeft (left.eraseIdx i).length choices := by
  rw [List.length_eraseIdx_of_lt h]

theorem not_mem_eraseIdx (hleft : left.Nodup) (h : left[i]? = some k) : k ∉ left.eraseIdx i := by
  obtain ⟨hi, rfl⟩ := List.getElem?_eq_some_iff.mp h
  rw [← hleft.erase_getElem i hi]
  exact hleft.not_mem_erase

theorem picked_subset : picked left choices ⊆ left := by
  induction choices generalizing left with
  | nil => exact List.nil_subset _
  | cons i choices ih =>
    rw [picked]
    split
    next => exact List.nil_subset _
    next k hk =>
      refine List.cons_subset.mpr ⟨List.mem_of_getElem? hk, ?_⟩
      exact List.Subset.trans ih (List.eraseIdx_sublist left i).subset

theorem nodup_picked (hleft : left.Nodup) : (picked left choices).Nodup := by
  induction choices generalizing left with
  | nil => exact .nil
  | cons i choices ih =>
    rw [picked]
    split
    next => exact .nil
    next k hk =>
      refine List.nodup_cons.mpr ⟨fun hmem => ?_, ih (hleft.sublist (List.eraseIdx_sublist left i))⟩
      exact not_mem_eraseIdx hleft hk (picked_subset hmem)

theorem length_picked (h : WithinLeft left.length choices) :
    (picked left choices).length = choices.length := by
  induction choices generalizing left with
  | nil => rfl
  | cons i choices ih =>
    obtain ⟨hi, h⟩ := h
    rw [picked_cons (List.getElem?_eq_getElem hi), List.length_cons, List.length_cons,
      ih ((withinLeft_eraseIdx hi).mp h)]

/-- Different choices pick differently. -/
theorem eq_of_picked_eq (hleft : left.Nodup) (h : WithinLeft left.length choices)
    (h' : WithinLeft left.length choices') (heq : picked left choices = picked left choices') :
    choices = choices' := by
  induction choices generalizing left choices' with
  | nil =>
    cases choices' with
    | nil => rfl
    | cons i' choices' =>
      rw [picked_cons (List.getElem?_eq_getElem h'.1)] at heq
      cases heq
  | cons i choices ih =>
    obtain ⟨hi, h⟩ := h
    rw [picked_cons (List.getElem?_eq_getElem hi)] at heq
    cases choices' with
    | nil => cases heq
    | cons i' choices' =>
      obtain ⟨hi', h'⟩ := h'
      rw [picked_cons (List.getElem?_eq_getElem hi')] at heq
      obtain ⟨hk, heq⟩ := List.cons.inj heq
      obtain rfl : i = i' := (List.Nodup.getElem_inj_iff hleft).mp hk
      rw [withinLeft_eraseIdx hi] at h h'
      rw [ih (hleft.sublist (List.eraseIdx_sublist left i)) h h' heq]

/-- Whatever is left can be picked in any order. -/
theorem exists_picked_eq (hleft : left.Nodup) (hks : ks.Nodup) (hsub : ks ⊆ left) :
    ∃ choices, WithinLeft left.length choices ∧ picked left choices = ks := by
  induction ks generalizing left with
  | nil => exact ⟨[], trivial, rfl⟩
  | cons k ks ih =>
    obtain ⟨hk, hrest⟩ := List.cons_subset.mp hsub
    obtain ⟨i, hi, rfl⟩ := List.mem_iff_getElem.mp hk
    obtain ⟨hnot, hks⟩ := List.nodup_cons.mp hks
    have hleft' : ks ⊆ left.eraseIdx i := by
      intro j hj
      rw [← hleft.erase_getElem i hi, hleft.mem_erase_iff]
      exact ⟨fun heq => hnot (heq ▸ hj), hrest hj⟩
    obtain ⟨choices, hwithin, hpicked⟩ :=
      ih (hleft.sublist (List.eraseIdx_sublist left i)) hks hleft'
    refine ⟨i :: choices, ⟨hi, (withinLeft_eraseIdx hi).mpr hwithin⟩, ?_⟩
    rw [picked_cons (List.getElem?_eq_getElem hi), hpicked]

/-- What is not picked after the first choice is not picked at all. -/
theorem filter_eraseIdx (hleft : left.Nodup) (h : left[i]? = some k) :
    (left.eraseIdx i).filter (· ∉ ks) = left.filter (· ∉ k :: ks) := by
  obtain ⟨hi, rfl⟩ := List.getElem?_eq_some_iff.mp h
  rw [← hleft.erase_getElem i hi, hleft.erase_eq_filter, List.filter_filter]
  refine List.filter_congr fun j _ => ?_
  rw [Bool.eq_iff_iff]
  simp [and_comm]

end Picking

/-! ## Assignments -/

/-- The elements of `xs` at the positions `ks`. -/
def elementsAt (xs : List NodeId) (ks : List Nat) : List NodeId := ks.filterMap (xs[·]?)

/-- `ks` are different positions of `xs`, one for each pattern that is no star. -/
structure IsAssignment (isStar : α → Bool) (ps : List α) (xs : List NodeId) (ks : List Nat) :
    Prop where
  length_eq : ks.length = (ps.filter fun p => !isStar p).length
  nodup : ks.Nodup
  lt_length : ∀ k ∈ ks, k < xs.length

/-- The links that give the elements `ys`, one after the other, to the patterns that are no
stars. -/
def pickLinks (isStar : α → Bool) (slot : Nat) (ps : List α) (ys : List NodeId) :
    List (DecidedLink α) :=
  List.zipWith (fun place y => ⟨place.2, place.1, .normal, .node y⟩)
    ((ps.zipIdx slot).filter fun place => !isStar place.1) ys

/-- The links that give all of `rest` to a star. -/
def starLinks (isStar : α → Bool) (slot : Nat) (ps : List α) (rest : List NodeId) :
    List (DecidedLink α) :=
  ((ps.zipIdx slot).filter fun place => isStar place.1).map fun place =>
    ⟨place.2, place.1, .multiplicity, .run false rest⟩

/-- The links of an assignment: each pattern has the element at its position, and a star has those
at the other positions, in their order. -/
def shareLinks (isStar : α → Bool) (slot : Nat) (ps : List α) (xs : List NodeId) (ks : List Nat) :
    List (DecidedLink α) :=
  pickLinks isStar slot ps (elementsAt xs ks) ++
    starLinks isStar slot ps (elementsAt xs ((List.range xs.length).filter (· ∉ ks)))

/-- Whether a collection has an element for each pattern that is no star and, without a star, no
others. -/
def Suffices (isStar : α → Bool) (ps : List α) (xs : List NodeId) : Prop :=
  if ps.any isStar then (ps.filter fun p => !isStar p).length ≤ xs.length
  else xs.length = (ps.filter fun p => !isStar p).length

section Assign

variable {slot : Nat} {ps : List α} {xs : List NodeId} {left path : List Nat}

theorem pickLinks_cons_star {p : α} (hp : isStar p = true) (ys : List NodeId) :
    pickLinks isStar slot (p :: ps) ys = pickLinks isStar (slot + 1) ps ys := by
  simp [pickLinks, List.zipIdx_cons, hp]

theorem pickLinks_cons_one {p : α} (hp : isStar p = false) (y : NodeId) (ys : List NodeId) :
    pickLinks isStar slot (p :: ps) (y :: ys) =
      ⟨slot, p, .normal, .node y⟩ :: pickLinks isStar (slot + 1) ps ys := by
  simp [pickLinks, List.zipIdx_cons, hp]

/-- A pattern that is no star picks one of the elements. -/
theorem endsAt_assign_cons {p : α} (hp : isStar p = false)
    {r : Except Halt (List (DecidedLink α) × List NodeId)} :
    Walk.EndsAt (assign isStar slot (p :: ps) xs) path r ↔
      ∃ i rest x r', path = i :: rest ∧ xs[i]? = some x ∧
        Walk.EndsAt (assign isStar (slot + 1) ps (xs.eraseIdx i)) rest r' ∧
        r = r'.map fun e => (⟨slot, p, .normal, .node x⟩ :: e.1, e.2) := by
  rw [assign, if_neg (by simp [hp]), Attempt.endsAt_choose_bind]
  constructor
  · rintro ⟨i, rest, rfl, -, hi, h⟩
    rw [List.getElem?_eq_getElem hi] at h
    obtain ⟨r', hrest, rfl⟩ := Attempt.endsAt_map.mp h
    exact ⟨i, rest, _, r', rfl, List.getElem?_eq_getElem hi, hrest, rfl⟩
  · rintro ⟨i, rest, x, r', rfl, hx, hrest, rfl⟩
    refine ⟨i, rest, rfl, Nat.zero_le i, (List.getElem?_eq_some_iff.mp hx).1, ?_⟩
    rw [hx]
    exact Attempt.endsAt_map.mpr ⟨r', hrest, rfl⟩

/-- Where there are enough elements, every choice of places among those that are left succeeds, with
the elements that it picks and those that it leaves. -/
theorem endsAt_assign (g : Nat → NodeId) (hleft : left.Nodup)
    (hroom : (ps.filter fun p => !isStar p).length ≤ left.length)
    {r : Except Halt (List (DecidedLink α) × List NodeId)} :
    Walk.EndsAt (assign isStar slot ps (left.map g)) path r ↔
      (path.length = (ps.filter fun p => !isStar p).length ∧ WithinLeft left.length path) ∧
        r = .ok (pickLinks isStar slot ps ((picked left path).map g),
          (left.filter (· ∉ picked left path)).map g) := by
  induction ps generalizing slot left path r with
  | nil =>
    rw [assign, Attempt.endsAt_pure]
    constructor
    · rintro ⟨rfl, rfl⟩
      exact ⟨⟨rfl, trivial⟩, by simp [picked, pickLinks]⟩
    · rintro ⟨⟨hpath, -⟩, rfl⟩
      obtain rfl := List.length_eq_zero_iff.mp hpath
      exact ⟨rfl, by simp [picked, pickLinks]⟩
  | cons p ps ih =>
    cases hp : isStar p with
    | true =>
      rw [List.filter_cons_of_neg (by simp [hp])] at hroom ⊢
      rw [assign, if_pos hp, ih hleft hroom, pickLinks_cons_star hp]
    | false =>
      rw [List.filter_cons_of_pos (by simp [hp]), List.length_cons] at hroom ⊢
      rw [endsAt_assign_cons hp]
      have hleft' (i : Nat) : (left.eraseIdx i).Nodup :=
        hleft.sublist (List.eraseIdx_sublist left i)
      have hroom' {i : Nat} (hi : i < left.length) :
          (ps.filter fun p => !isStar p).length ≤ (left.eraseIdx i).length := by
        rw [List.length_eraseIdx_of_lt hi]
        omega
      constructor
      · rintro ⟨i, rest, x, r', rfl, hx, h, rfl⟩
        rw [List.getElem?_map] at hx
        obtain ⟨k, hk, rfl⟩ := Option.map_eq_some_iff.mp hx
        obtain ⟨hi, -⟩ := List.getElem?_eq_some_iff.mp hk
        rw [List.eraseIdx_map] at h
        obtain ⟨⟨hlength, hwithin⟩, rfl⟩ := (ih (hleft' i) (hroom' hi)).mp h
        refine ⟨⟨by rw [List.length_cons, hlength], hi, (withinLeft_eraseIdx hi).mpr hwithin⟩, ?_⟩
        rw [picked_cons hk, List.map_cons, pickLinks_cons_one hp, ← filter_eraseIdx hleft hk]
        rfl
      · rintro ⟨⟨hlength, hwithin⟩, rfl⟩
        cases path with
        | nil => cases hlength
        | cons i rest =>
          obtain ⟨hi, hwithin⟩ := hwithin
          have hk : left[i]? = some left[i] := List.getElem?_eq_getElem hi
          have hrest : Walk.EndsAt (assign isStar (slot + 1) ps ((left.eraseIdx i).map g)) rest _ :=
            (ih (hleft' i) (hroom' hi)).mpr
              ⟨⟨Nat.succ.inj hlength, (withinLeft_eraseIdx hi).mp hwithin⟩, rfl⟩
          rw [← List.eraseIdx_map] at hrest
          refine ⟨i, rest, g left[i], _, rfl, by rw [List.getElem?_map, hk]; rfl, hrest, ?_⟩
          rw [picked_cons hk, List.map_cons, pickLinks_cons_one hp, ← filter_eraseIdx hleft hk]
          rfl

theorem hasChoices_assign (h : (ps.filter fun p => !isStar p).length ≤ xs.length) :
    Walk.HasChoices (assign isStar slot ps xs) := by
  induction ps generalizing slot xs with
  | nil => trivial
  | cons p ps ih =>
    rw [assign]
    cases hp : isStar p with
    | true =>
      rw [List.filter_cons_of_neg (by simp [hp])] at h
      exact ih h
    | false =>
      rw [List.filter_cons_of_pos (by simp [hp]), List.length_cons] at h
      refine Attempt.hasChoices_choose_bind (by omega) fun i _ hi => ?_
      rw [List.getElem?_eq_getElem hi]
      exact Attempt.hasChoices_map (ih (by rw [List.length_eraseIdx_of_lt hi]; omega))

end Assign

/-! ## Collections -/

section Elements

variable {xs : List NodeId} {ks : List Nat}

theorem elementsAt_eq_map (h : ∀ k ∈ ks, k < xs.length) :
    elementsAt xs ks = ks.map fun k => xs.getD k 0 := by
  rw [elementsAt, ← List.filterMap_eq_map]
  refine List.filterMap_congr fun k hk => ?_
  simp [h k hk]

theorem map_getD_range (xs : List NodeId) :
    (List.range xs.length).map (fun k => xs.getD k 0) = xs := by
  refine List.ext_getElem (by simp) fun k _ hk => ?_
  simp [hk]

end Elements

section Collection

variable {slot : Nat} {ps : List α} {xs : List NodeId} {path : List Nat}

/-- The choices of a collection pick positions of the whole of it. -/
theorem endsAt_assign_positions (hroom : (ps.filter fun p => !isStar p).length ≤ xs.length)
    {r : Except Halt (List (DecidedLink α) × List NodeId)} :
    Walk.EndsAt (assign isStar slot ps xs) path r ↔
      (path.length = (ps.filter fun p => !isStar p).length ∧ WithinLeft xs.length path) ∧
        r = .ok (pickLinks isStar slot ps (elementsAt xs (picked (List.range xs.length) path)),
          elementsAt xs ((List.range xs.length).filter
            (· ∉ picked (List.range xs.length) path))) := by
  rw [elementsAt_eq_map fun k hk => List.mem_range.mp (picked_subset hk),
    elementsAt_eq_map fun k hk => List.mem_range.mp (List.mem_filter.mp hk).1]
  have hroom' : (ps.filter fun p => !isStar p).length ≤ (List.range xs.length).length := by
    rw [List.length_range]
    exact hroom
  conv_lhs => rw [← map_getD_range xs]
  rw [endsAt_assign _ List.nodup_range hroom', List.length_range]

theorem starLinks_eq_nil (slot : Nat) (h : ∀ p ∈ ps, isStar p = false) (rest : List NodeId) :
    starLinks isStar slot ps rest = [] := by
  refine List.map_eq_nil_iff.mpr (List.filter_eq_nil_iff.mpr fun place hplace => ?_)
  simp [h place.1 (List.fst_mem_of_mem_zipIdx hplace)]

theorem starLinks_append (slot : Nat) (ps qs : List α) (rest : List NodeId) :
    starLinks isStar slot (ps ++ qs) rest =
      starLinks isStar slot ps rest ++ starLinks isStar (slot + ps.length) qs rest := by
  rw [starLinks, List.zipIdx_append, List.filter_append, List.map_append]
  rfl

theorem starLinks_cons (slot : Nat) {p : α} (hp : isStar p = true) (ps : List α)
    (rest : List NodeId) :
    starLinks isStar slot (p :: ps) rest =
      ⟨slot, p, .multiplicity, .run false rest⟩ :: starLinks isStar (slot + 1) ps rest := by
  rw [starLinks, List.zipIdx_cons, List.filter_cons_of_pos (by exact hp)]
  rfl

/-- What a collection does with the elements that are picked and with those that are left. -/
theorem collectionLinks_cases (slot : Nat) (xs : List NodeId)
    (hstars : (ps.filter isStar).length ≤ 1) :
    (Suffices isStar ps xs ∧ collectionLinks isStar slot ps xs = (do
      let e ← assign isStar slot ps xs
      return e.1 ++ starLinks isStar slot ps e.2)) ∨
    ¬ Suffices isStar ps xs ∧ collectionLinks isStar slot ps xs = .mismatch .size := by
  unfold collectionLinks
  split
  next hfind =>
    have hps := find?_zipIdx_eq_none hfind
    have hsuffices : Suffices isStar ps xs ↔ xs.length = ps.length := by
      rw [Suffices, if_neg (by simpa using hps), List.filter_eq_self.mpr (by simpa using hps)]
    rw [hsuffices]
    split
    next hlen => exact .inl ⟨hlen, by simp only [starLinks_eq_nil slot hps, List.append_nil]⟩
    next hlen => exact .inr ⟨hlen, rfl⟩
  next star i hfind =>
    obtain ⟨before, after, rfl, rfl, hstar, hbefore, hafter⟩ := find?_zipIdx_sole hstars hfind
    have hfixed : (before ++ star :: after).filter (fun p => !isStar p) = before ++ after := by
      rw [List.filter_append, List.filter_cons_of_neg (by simp [hstar]),
        List.filter_eq_self.mpr (by simpa using hbefore),
        List.filter_eq_self.mpr (by simpa using hafter)]
    have hsuffices : Suffices isStar (before ++ star :: after) xs ↔
        (before ++ star :: after).length - 1 ≤ xs.length := by
      rw [Suffices, if_pos (by simp [hstar]), hfixed]
      simp
    rw [hsuffices]
    split
    next hlen =>
      refine .inl ⟨hlen, ?_⟩
      simp only [starLinks_append, starLinks_cons _ hstar, starLinks_eq_nil _ hbefore,
        starLinks_eq_nil _ hafter, List.nil_append]
    next hlen => exact .inr ⟨hlen, rfl⟩

theorem Suffices.room_le (h : Suffices isStar ps xs) :
    (ps.filter fun p => !isStar p).length ≤ xs.length := by
  rw [Suffices] at h
  split at h <;> omega

/-- A collection that suffices shares itself out by the positions that are picked. -/
theorem Suffices.endsAt_collectionLinks (h : Suffices isStar ps xs)
    (hstars : (ps.filter isStar).length ≤ 1) {r : Except Halt (List (DecidedLink α))} :
    Walk.EndsAt (collectionLinks isStar slot ps xs) path r ↔
      (path.length = (ps.filter fun p => !isStar p).length ∧ WithinLeft xs.length path) ∧
        r = .ok (shareLinks isStar slot ps xs (picked (List.range xs.length) path)) := by
  obtain ⟨-, heq⟩ | ⟨hnot, -⟩ := collectionLinks_cases slot xs hstars
  · rw [heq, Attempt.endsAt_map]
    constructor
    · rintro ⟨r', hassign, rfl⟩
      obtain ⟨hpath, rfl⟩ := (endsAt_assign_positions h.room_le).mp hassign
      exact ⟨hpath, rfl⟩
    · rintro ⟨hpath, rfl⟩
      exact ⟨_, (endsAt_assign_positions h.room_le).mpr ⟨hpath, rfl⟩, rfl⟩
  · exact absurd h hnot

theorem hasChoices_collectionLinks (slot : Nat) (xs : List NodeId)
    (hstars : (ps.filter isStar).length ≤ 1) :
    Walk.HasChoices (collectionLinks isStar slot ps xs) := by
  obtain ⟨h, heq⟩ | ⟨-, heq⟩ := collectionLinks_cases slot xs hstars
  · rw [heq]
    exact Attempt.hasChoices_map (hasChoices_assign h.room_le)
  · rw [heq]
    trivial

/-- What the choices of a collection pick is an assignment. -/
theorem isAssignment_picked (hpath : path.length = (ps.filter fun p => !isStar p).length)
    (hwithin : WithinLeft xs.length path) :
    IsAssignment isStar ps xs (picked (List.range xs.length) path) where
  length_eq := by
    rw [length_picked (by rwa [List.length_range]), hpath]
  nodup := nodup_picked List.nodup_range
  lt_length k hk := List.mem_range.mp (picked_subset hk)

/-- The choices of a collection and the assignments of its positions are in bijection.  There always
is a choice, and whether there is an assignment does not depend on the choices: it takes enough
elements, and without a star as many as there are patterns. -/
theorem collectionLinks_enumerates_assignments (slot : Nat) (xs : List NodeId)
    (hstars : (ps.filter isStar).length ≤ 1) :
    Walk.HasChoices (collectionLinks isStar slot ps xs) ∧
    (∃ path r, Walk.EndsAt (collectionLinks isStar slot ps xs) path r) ∧
    (∀ path r, Walk.EndsAt (collectionLinks isStar slot ps xs) path r →
      ((∃ links, r = .ok links) ↔ Suffices isStar ps xs)) ∧
    (∀ path links, Walk.EndsAt (collectionLinks isStar slot ps xs) path (.ok links) →
      IsAssignment isStar ps xs (picked (List.range xs.length) path) ∧
        links = shareLinks isStar slot ps xs (picked (List.range xs.length) path)) ∧
    (∀ path path' links links', Walk.EndsAt (collectionLinks isStar slot ps xs) path (.ok links) →
      Walk.EndsAt (collectionLinks isStar slot ps xs) path' (.ok links') → path ≠ path' →
      picked (List.range xs.length) path ≠ picked (List.range xs.length) path') ∧
    (Suffices isStar ps xs → ∀ ks, IsAssignment isStar ps xs ks →
      ∃! path, (∃ links, Walk.EndsAt (collectionLinks isStar slot ps xs) path (.ok links)) ∧
        picked (List.range xs.length) path = ks) := by
  have hchoices := hasChoices_collectionLinks slot xs hstars
  have hsuffices {path links}
      (h : Walk.EndsAt (collectionLinks isStar slot ps xs) path (.ok links)) :
      Suffices isStar ps xs := by
    obtain ⟨hyes, -⟩ | ⟨-, heq⟩ := collectionLinks_cases slot xs hstars
    · exact hyes
    · rw [heq] at h
      cases (Attempt.endsAt_mismatch.mp h).2
  have hends {path links} (h : Walk.EndsAt (collectionLinks isStar slot ps xs) path (.ok links)) :=
    ((hsuffices h).endsAt_collectionLinks hstars).mp h
  have hinj {path path' links links'}
      (h : Walk.EndsAt (collectionLinks isStar slot ps xs) path (.ok links))
      (h' : Walk.EndsAt (collectionLinks isStar slot ps xs) path' (.ok links'))
      (heq : picked (List.range xs.length) path = picked (List.range xs.length) path') :
      path = path' := by
    refine eq_of_picked_eq List.nodup_range ?_ ?_ heq
    · rw [List.length_range]
      exact (hends h).1.2
    · rw [List.length_range]
      exact (hends h').1.2
  refine ⟨hchoices, hchoices.exists_endsAt, fun path r h => ⟨?_, fun hyes => ?_⟩,
    fun path links h => ?_,
    fun path path' links links' h h' hne heq => hne (hinj h h' heq), fun hyes ks hks => ?_⟩
  · rintro ⟨links, rfl⟩
    exact hsuffices h
  · exact ⟨_, ((hyes.endsAt_collectionLinks hstars).mp h).2⟩
  · obtain ⟨⟨hpath, hwithin⟩, hlinks⟩ := hends h
    exact ⟨isAssignment_picked hpath hwithin, Except.ok.inj hlinks⟩
  · have hsub : ks ⊆ List.range xs.length := fun k hk => List.mem_range.mpr (hks.lt_length k hk)
    obtain ⟨path, hwithin, rfl⟩ := exists_picked_eq List.nodup_range hks.nodup hsub
    have hpath : path.length = (ps.filter fun p => !isStar p).length :=
      (length_picked hwithin).symm.trans hks.length_eq
    rw [List.length_range] at hwithin
    have h : Walk.EndsAt (collectionLinks isStar slot ps xs) path _ :=
      (hyes.endsAt_collectionLinks hstars).mpr ⟨⟨hpath, hwithin⟩, rfl⟩
    refine ⟨path, ⟨⟨_, h⟩, rfl⟩, ?_⟩
    rintro path' ⟨⟨links', h'⟩, heq⟩
    exact hinj h' h heq

/-- A star between two patterns, and an element that is there twice: the first pattern takes the
second of them, and the star takes what stands between the two. -/
theorem collectionLinks_enumerates_assignments_starBetween :
    ([1, 0, 2].filter (· == 0)).length ≤ 1 ∧ Suffices (· == 0) [1, 0, 2] [7, 8, 7] ∧
      IsAssignment (· == 0) [1, 0, 2] [7, 8, 7] [2, 0] ∧
      (∃! path,
        (∃ links, Walk.EndsAt (collectionLinks (· == 0) 0 [1, 0, 2] [7, 8, 7]) path (.ok links)) ∧
        picked (List.range 3) path = [2, 0]) ∧
      shareLinks (· == 0) 0 [1, 0, 2] [7, 8, 7] [2, 0] = [⟨0, 1, .normal, .node 7⟩,
        ⟨2, 2, .normal, .node 7⟩, ⟨1, 0, .multiplicity, .run false [8]⟩] := by
  have hstars : ([1, 0, 2].filter (· == 0)).length ≤ 1 := by decide
  have hsuffices : Suffices (· == 0) [1, 0, 2] [7, 8, 7] := by
    rw [Suffices, if_pos (by decide)]
    decide
  have hassigned : IsAssignment (· == 0) [1, 0, 2] [7, 8, 7] [2, 0] := ⟨rfl, by decide, by decide⟩
  obtain ⟨-, -, -, -, -, hunique⟩ := collectionLinks_enumerates_assignments 0 [7, 8, 7] hstars
  exact ⟨hstars, hsuffices, hassigned, hunique hsuffices [2, 0] hassigned, by decide⟩

end Collection

end Espalier
