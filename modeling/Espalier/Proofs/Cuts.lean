import Espalier.Proofs.Lexicographic
import Espalier.Proofs.Shares

/-!
# Cuts of a sequence

A sequence is cut into one part for each pattern of a container.  `IsCut` says which cuts there are,
without a word about choices.  The choices of `sequenceLinks` lead to each of them once, in
lexicographic order of the places where the runs of the stars end.

Each star knows only how much of the sequence is left and how many patterns after it need an
element, and the last one knows nothing; `cutByPosition` does the same with positions in the whole
sequence, where a run that is no part of it would be a fault.
-/

namespace Espalier

variable {α : Type} {isStar : α → Bool}

/-- `parts` put together are `xs`, one for each pattern, and a pattern that is no star has a part of
one element. -/
structure IsCut (isStar : α → Bool) (ps : List α) (xs : List NodeId) (parts : List (List NodeId)) :
    Prop where
  flatten_eq : parts.flatten = xs
  fits : List.Forall₂ (fun p part => isStar p = false → part.length = 1) ps parts

/-- The links that give each pattern its part: a star the run and any other pattern the element. -/
def cutLinks (isStar : α → Bool) : (slot : Nat) → List α → List (List NodeId) → List (DecidedLink α)
  | slot, p :: ps, part :: parts =>
    (if isStar p then [⟨slot, p, .multiplicity, .run true part⟩]
      else part.map fun x => ⟨slot, p, .normal, .node x⟩) ++ cutLinks isStar (slot + 1) ps parts
  | _, _, _ => []

/-- Where the runs among the keys end, if the first key starts at `pos`. -/
def runEnds : (pos : Nat) → List (DecidedLink α) → List Nat
  | _, [] => []
  | pos, l :: links =>
    match l.key with
    | .node _ => runEnds (pos + 1) links
    | .run _ items => (pos + items.length) :: runEnds (pos + items.length) links

section Cuts

variable {slot : Nat} {ps : List α} {xs : List NodeId} {links : List (DecidedLink α)}
  {parts : List (List NodeId)}

theorem SequenceSplit.isCut (h : SequenceSplit isStar slot ps xs links) :
    IsCut isStar ps xs (links.map (·.key.nodes)) ∧
      links = cutLinks isStar slot ps (links.map (·.key.nodes)) := by
  induction h with
  | nil => exact ⟨⟨rfl, .nil⟩, rfl⟩
  | @star slot p ps run xs links hp _ ih =>
    obtain ⟨⟨hflatten, hfits⟩, hlinks⟩ := ih
    refine ⟨⟨by simp [hflatten], .cons ?_ hfits⟩, ?_⟩
    · simp [hp]
    · rw [List.map_cons, cutLinks, ← hlinks, if_pos hp]
      rfl
  | @one slot p ps x xs links hp _ ih =>
    obtain ⟨⟨hflatten, hfits⟩, hlinks⟩ := ih
    refine ⟨⟨by simp [hflatten], .cons ?_ hfits⟩, ?_⟩
    · simp
    · rw [List.map_cons, cutLinks, ← hlinks, if_neg (by simp [hp])]
      rfl

theorem sequenceSplit_of_isCut (h : IsCut isStar ps xs parts) (slot : Nat) :
    SequenceSplit isStar slot ps xs (cutLinks isStar slot ps parts) ∧
      (cutLinks isStar slot ps parts).map (·.key.nodes) = parts := by
  obtain ⟨rfl, hfits⟩ := h
  induction hfits generalizing slot with
  | nil => exact ⟨.nil, rfl⟩
  | @cons p part ps parts hpart _ ih =>
    obtain ⟨hsplit, hnodes⟩ := ih (slot + 1)
    cases hp : isStar p with
    | true =>
      rw [cutLinks, if_pos hp, List.flatten_cons]
      exact ⟨.star hp hsplit, by simp [hnodes]⟩
    | false =>
      obtain ⟨x, rfl⟩ := List.length_eq_one_iff.mp (hpart hp)
      rw [cutLinks, if_neg (by simp [hp]), List.flatten_cons]
      exact ⟨.one hp hsplit, by simp [hnodes]⟩

end Cuts

/-! ## The choices -/

section Choices

variable {slot used : Nat} {ps : List α} {xs : List NodeId} {path path' : List Nat}
  {links links' : List (DecidedLink α)}

/-- Wherever a star decides where its run ends, there is a place that leaves room for the patterns
after it. -/
theorem hasChoices_sequenceLinks (isStar : α → Bool) (slot used : Nat) (ps : List α)
    (xs : List NodeId) : Walk.HasChoices (sequenceLinks isStar slot used ps xs) := by
  induction ps generalizing slot used xs with
  | nil => cases xs <;> trivial
  | cons p ps ih =>
    rw [sequenceLinks.eq_def]
    dsimp only
    split
    · split
      · trivial
      · split
        · refine Attempt.hasChoices_choose_bind (by omega) fun i _ _ => ?_
          exact Attempt.hasChoices_map (ih _ _ _)
        · trivial
    · split
      · trivial
      · exact Attempt.hasChoices_map (ih _ _ _)

/-- How a sequence is cut by its first pattern: a star at the end takes what there is, any other
star takes `n` elements as it has been decided, and a pattern that is no star takes one. -/
theorem endsAt_sequenceLinks_cons {p : α}
    (h : Walk.EndsAt (sequenceLinks isStar slot used (p :: ps) xs) path (.ok links)) :
    (isStar p = true ∧ ps = [] ∧ path = []) ∨
    (isStar p = true ∧ ps ≠ [] ∧ ∃ n rest links', n ≤ xs.length ∧ path = (used + n) :: rest ∧
      Walk.EndsAt (sequenceLinks isStar (slot + 1) (used + n) ps (xs.drop n)) rest (.ok links') ∧
      links = ⟨slot, p, .multiplicity, .run true (xs.take n)⟩ :: links') ∨
    (isStar p = false ∧ ∃ x xs' links', xs = x :: xs' ∧
      Walk.EndsAt (sequenceLinks isStar (slot + 1) (used + 1) ps xs') path (.ok links') ∧
      links = ⟨slot, p, .normal, .node x⟩ :: links') := by
  rw [sequenceLinks.eq_def] at h
  dsimp only at h
  split at h
  next hp =>
    split at h
    next hps => exact .inl ⟨hp, List.isEmpty_iff.mp hps, (Attempt.endsAt_pure.mp h).1⟩
    next hps =>
      split at h
      next hroom =>
        obtain ⟨stop, rest, rfl, hstart, hstop, hmap⟩ := Attempt.endsAt_choose_bind.mp h
        obtain ⟨links', hrest, rfl⟩ := Attempt.endsAt_map_ok.mp hmap
        obtain ⟨n, rfl⟩ := Nat.exists_eq_add_of_le hstart
        rw [Nat.add_sub_cancel_left] at hrest ⊢
        exact .inr (.inl ⟨hp, by simpa using hps, n, rest, links', by omega, rfl, hrest, rfl⟩)
      next => cases (Attempt.endsAt_mismatch.mp h).2
  next hp =>
    split at h
    next => cases (Attempt.endsAt_mismatch.mp h).2
    next x xs' =>
      obtain ⟨links', hrest, rfl⟩ := Attempt.endsAt_map_ok.mp h
      exact .inr (.inr ⟨Bool.eq_false_iff.mpr hp, x, xs', links', rfl, hrest, rfl⟩)

/-- The later of two cuts is the one where the first run that differs ends later. -/
theorem runEnds_lt_of_endsAt
    (h : Walk.EndsAt (sequenceLinks isStar slot used ps xs) path (.ok links))
    (h' : Walk.EndsAt (sequenceLinks isStar slot used ps xs) path' (.ok links'))
    (hlt : path < path') : runEnds used links < runEnds used links' := by
  induction ps generalizing slot used xs path path' links links' with
  | nil =>
    cases xs with
    | nil =>
      rw [(Attempt.endsAt_pure.mp h).1, (Attempt.endsAt_pure.mp h').1] at hlt
      exact absurd hlt (lt_irrefl _)
    | cons x xs => cases (Attempt.endsAt_mismatch.mp h).2
  | cons p ps ih =>
    rcases endsAt_sequenceLinks_cons h with ⟨hp, rfl, rfl⟩ | ⟨hp, hps, n, rest, tail, hn, rfl,
      hrest, rfl⟩ | ⟨hp, x, xs, tail, rfl, hrest, rfl⟩
    · -- The last star decides nothing, so there is one cut only.
      rcases endsAt_sequenceLinks_cons h' with ⟨-, -, rfl⟩ | ⟨-, hps, -⟩ | ⟨hp', -⟩
      · exact absurd hlt (lt_irrefl _)
      · exact absurd rfl hps
      · cases hp.symm.trans hp'
    · rcases endsAt_sequenceLinks_cons h' with ⟨-, hps', -⟩ |
        ⟨-, -, n', rest', tail', hn', rfl, hrest', rfl⟩ | ⟨hp', -⟩
      · exact absurd hps' hps
      · simp only [runEnds, List.length_take, Nat.min_eq_left hn, Nat.min_eq_left hn']
        rcases List.cons_lt_cons_iff.mp hlt with hstop | ⟨hstop, htail⟩
        · exact List.cons_lt_cons_iff.mpr (.inl hstop)
        · obtain rfl : n = n' := Nat.add_left_cancel hstop
          exact List.cons_lt_cons_iff.mpr (.inr ⟨rfl, ih hrest hrest' htail⟩)
      · cases hp.symm.trans hp'
    · rcases endsAt_sequenceLinks_cons h' with ⟨hp', -⟩ | ⟨hp', -⟩ | ⟨-, x', xs', tail',
        hxs, hrest', rfl⟩
      · cases hp.symm.trans hp'
      · cases hp.symm.trans hp'
      · obtain ⟨rfl, rfl⟩ := List.cons.inj hxs
        simp only [runEnds]
        exact ih hrest hrest' hlt

/-- No two ways lead to the same cut. -/
theorem path_eq_of_endsAt (h : Walk.EndsAt (sequenceLinks isStar slot used ps xs) path (.ok links))
    (h' : Walk.EndsAt (sequenceLinks isStar slot used ps xs) path' (.ok links)) : path = path' := by
  rcases lt_trichotomy path path' with hlt | heq | hlt
  · exact absurd (runEnds_lt_of_endsAt h h' hlt) (lt_irrefl _)
  · exact heq
  · exact absurd (runEnds_lt_of_endsAt h' h hlt) (lt_irrefl _)

end Choices

/-! ## Positions -/

/-- The elements of `xs` from the position `start` up to `stop`, if `xs` has such a part. -/
def slice? (xs : List NodeId) (start stop : Nat) : Option (List NodeId) :=
  if start ≤ stop ∧ stop ≤ xs.length then some ((xs.drop start).take (stop - start)) else none

/-- Cut a sequence by positions in the whole of it: the first `pos` elements are taken already.  A
run that is no part of the sequence is the fault `e`. -/
def cutByPosition (isStar : α → Bool) (e : Fault) (xs : List NodeId) :
    (slot pos : Nat) → List α → Attempt (List (DecidedLink α))
  | _, pos, [] => if pos = xs.length then pure [] else .mismatch .size
  | slot, pos, p :: ps =>
    let take (stop : Nat) : Attempt (List (DecidedLink α)) :=
      match slice? xs pos stop with
      | none => .fault e
      | some run => do
        let rest ← cutByPosition isStar e xs (slot + 1) stop ps
        return ⟨slot, p, .multiplicity, .run true run⟩ :: rest
    if isStar p then
      if ps.isEmpty then take xs.length
      else
        let room := (ps.filter fun q => !isStar q).length
        if pos + room ≤ xs.length then do
          let stop ← Attempt.choose pos (xs.length - room + 1)
          take stop
        else .mismatch .size
    else
      match xs[pos]? with
      | none => .mismatch .size
      | some x => do
        let rest ← cutByPosition isStar e xs (slot + 1) (pos + 1) ps
        return ⟨slot, p, .normal, .node x⟩ :: rest

theorem slice?_of_le {xs : List NodeId} {start stop : Nat} (h : start ≤ stop)
    (h' : stop ≤ xs.length) :
    slice? xs start stop = some ((xs.drop start).take (stop - start)) := if_pos ⟨h, h'⟩

/-- Positions in the whole sequence and parts of what is left of it come to the same ends. -/
theorem endsAt_cutByPosition {e : Fault} {xs : List NodeId} {slot pos : Nat} {ps : List α}
    {path : List Nat} {r : Except Halt (List (DecidedLink α))} (hpos : pos ≤ xs.length) :
    Walk.EndsAt (cutByPosition isStar e xs slot pos ps) path r ↔
      Walk.EndsAt (sequenceLinks isStar slot pos ps (xs.drop pos)) path r := by
  induction ps generalizing slot pos path r with
  | nil =>
    rw [cutByPosition]
    split
    next hend => rw [hend, List.drop_length, sequenceLinks]
    next hend =>
      rw [List.drop_eq_getElem_cons (by omega), sequenceLinks]
  | cons p ps ih =>
    rw [cutByPosition, sequenceLinks.eq_def]
    dsimp only
    split
    next =>
      split
      next hps =>
        rw [slice?_of_le hpos (Nat.le_refl _), List.isEmpty_iff.mp hps, cutByPosition, if_pos rfl,
          List.take_of_length_le (by simp)]
        rfl
      next =>
        have hroom : pos + (ps.filter fun q => !isStar q).length ≤ xs.length ↔
            (ps.filter fun q => !isStar q).length ≤ (xs.drop pos).length := by
          rw [List.length_drop]
          omega
        simp only [hroom]
        split
        next hle =>
          rw [List.length_drop] at hle ⊢
          have hoffer : pos + (xs.length - pos - (ps.filter fun q => !isStar q).length) =
              xs.length - (ps.filter fun q => !isStar q).length := by omega
          rw [Attempt.endsAt_choose_bind, Attempt.endsAt_choose_bind, hoffer]
          refine exists_congr fun stop => exists_congr fun rest => and_congr_right fun _ =>
            and_congr_right fun hstart => and_congr_right fun hstop => ?_
          rw [slice?_of_le hstart (by omega)]
          dsimp only
          rw [Attempt.endsAt_map, Attempt.endsAt_map, List.drop_drop, Nat.add_sub_of_le hstart]
          exact exists_congr fun r' => and_congr_left fun _ => ih (by omega)
        next => rfl
    next =>
      rcases Nat.lt_or_eq_of_le hpos with hlt | rfl
      · rw [List.getElem?_eq_getElem hlt, List.drop_eq_getElem_cons hlt]
        dsimp only
        rw [Attempt.endsAt_map, Attempt.endsAt_map]
        exact exists_congr fun r' => and_congr_left fun _ => ih hlt
      · rw [List.getElem?_eq_none (Nat.le_refl _), List.drop_length]

/-- The choices of a sequence lead to all of its cuts, and to each of them once.  There always is a
choice, later choices come to later ends of the runs, and no run goes beyond the sequence: positions
in the whole sequence, where such a run is a fault, come to the same ends, and none of these is a
fault. -/
theorem sequenceLinks_enumerates_cuts (isStar : α → Bool) (slot : Nat) (ps : List α)
    (xs : List NodeId) :
    Walk.HasChoices (sequenceLinks isStar slot 0 ps xs) ∧
    (∀ path links, Walk.EndsAt (sequenceLinks isStar slot 0 ps xs) path (.ok links) →
      IsCut isStar ps xs (links.map (·.key.nodes)) ∧
        links = cutLinks isStar slot ps (links.map (·.key.nodes))) ∧
    (∀ parts, IsCut isStar ps xs parts →
      ∃! path, ∃ links, Walk.EndsAt (sequenceLinks isStar slot 0 ps xs) path (.ok links) ∧
        links.map (·.key.nodes) = parts) ∧
    (∀ path path' links links', Walk.EndsAt (sequenceLinks isStar slot 0 ps xs) path (.ok links) →
      Walk.EndsAt (sequenceLinks isStar slot 0 ps xs) path' (.ok links') → path < path' →
      runEnds 0 links < runEnds 0 links') ∧
    (∀ e path r, Walk.EndsAt (sequenceLinks isStar slot 0 ps xs) path r ↔
      Walk.EndsAt (cutByPosition isStar e xs slot 0 ps) path r) ∧
    ∀ e path, ¬ Walk.EndsAt (sequenceLinks isStar slot 0 ps xs) path (.error (.fault e)) := by
  have hchoices := hasChoices_sequenceLinks isStar slot 0 ps xs
  have hgives (links) : (sequenceLinks isStar slot 0 ps xs).Gives links ↔ _ :=
    Walk.mem_leaves_iff hchoices
  have hcut {path links} (h : Walk.EndsAt (sequenceLinks isStar slot 0 ps xs) path (.ok links)) :=
    (sequenceSplit_of_gives ((hgives links).mpr ⟨path, h⟩)).isCut
  refine ⟨hchoices, fun path links => hcut, fun parts hparts => ?_,
    fun path path' links links' => runEnds_lt_of_endsAt, fun e path r => ?_, fun e path h => ?_⟩
  · obtain ⟨hsplit, hnodes⟩ := sequenceSplit_of_isCut hparts slot
    obtain ⟨path, h⟩ := (hgives _).mp (gives_of_sequenceSplit hsplit 0)
    refine ⟨path, ⟨_, h, hnodes⟩, ?_⟩
    rintro path' ⟨links, h', rfl⟩
    rw [← (hcut h').2] at h
    exact path_eq_of_endsAt h' h
  · exact (endsAt_cutByPosition (Nat.zero_le _)).symm
  · exact not_faults_sequenceLinks ((Walk.mem_leaves_iff hchoices).mpr ⟨path, h⟩)

/-- Two stars side by side at the end, the first of which may take nothing. -/
theorem sequenceLinks_enumerates_cuts_adjacentStars :
    IsCut (· == 0) [0, 1, 0, 0] [7, 8, 7] [[7], [8], [], [7]] ∧
      ∃! path, ∃ links, Walk.EndsAt (sequenceLinks (· == 0) 0 0 [0, 1, 0, 0] [7, 8, 7]) path
        (.ok links) ∧ links.map (·.key.nodes) = [[7], [8], [], [7]] := by
  have hcut : IsCut (· == 0) [0, 1, 0, 0] [7, 8, 7] [[7], [8], [], [7]] := ⟨rfl, by simp⟩
  exact ⟨hcut, (sequenceLinks_enumerates_cuts (· == 0) 0 [0, 1, 0, 0] [7, 8, 7]).2.2.1 _ hcut⟩

end Espalier
