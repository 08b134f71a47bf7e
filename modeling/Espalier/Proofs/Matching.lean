import Espalier.Proofs.Occurrence
import Espalier.Proofs.Query

/-!
# When a pattern matches a node

Matching said by recursion on the pattern, without decisions, couplings or plans, for patterns that
are not shared.  Held against a node, a pattern matches if and only if it may decide on links whose
targets match what the links give them, where the abnormal ones are combined as the pattern says.
-/

namespace Espalier

variable {s : Schema}

section Matches

variable {α : Type} (M : α → NodeId → Prop) (isStar : α → Bool)

/-- The part of a sequence that falls to one pattern: a run of matching elements to a star, and to
any other pattern one element that it matches. -/
def PartMatches (q : α) (part : List NodeId) : Prop :=
  if isStar q then ∀ y ∈ part, M q y else ∃ y, part = [y] ∧ M q y

/-- A member of a pattern matches one of a node.  A sequence is cut into one part for each pattern;
from a collection each pattern that is no star is given an element, and a star matches the rest. -/
def MemberMatches : Member α → Member NodeId → Prop
  | .single none, .single _ => True
  | .single (some q), .single (some y) => M q y
  | .sequence qs, .sequence ys =>
    ∃ parts, parts.flatten = ys ∧ List.Forall₂ (PartMatches M isStar) qs parts
  | .collection qs, .collection ys =>
    ∃ given rest, (given ++ rest).Perm ys ∧
      List.Forall₂ M (qs.filter fun q => !isStar q) given ∧
      ∀ y ∈ rest, ∃ q ∈ qs, isStar q = true ∧ M q y
  | _, _ => False

/-- An agent matches the node `x`, where `M` says what the patterns that it refers to match. -/
def Scene.AgentMatches (scene : Scene s) (x : NodeId) : Agent α → Prop
  | .standard value members =>
    (value.isSome → (scene.forest.get x).value = value) ∧
      List.Forall₂ (MemberMatches M isStar) members
        ((scene.forest.get x).members.take members.length)
  | .star restriction => ∀ r ∈ restriction, M r x
  | .stuff terminus restriction =>
    ∃ above y, scene.forest.Way x above y ∧ M terminus y ∧ ∀ r ∈ restriction, ∀ z ∈ above, M r z
  | .anyNode terminus => ∃ y ∈ scene.forest.children x, M terminus y
  | .overlay through _ | .slave through _ => M through x
  | .greenGrass through => x < scene.watermark ∧ M through x
  | .notMatch q => ¬ M q x
  | .matchAll qs => ∀ q ∈ qs, M q x
  | .matchAny qs => ∃ q ∈ qs, M q x

end Matches

/-- The pattern `p` matches the node `x`; of a star, that `x` may be one of the elements it stands
for. -/
def Scene.Matches (scene : Scene s) (p : PatternId) (x : NodeId) : Prop :=
  s.isSubkind (scene.forest.kind x) (scene.patterns.pattern p).kind = true ∧
    scene.AgentMatches (fun (q : Fin p) y => scene.Matches q.val y)
      (fun q => scene.patterns.isStar q.val) x (scene.patterns.pattern p).agent
termination_by p
decreasing_by exact q.isLt

/-! ## Links that hold -/

section Hold

variable {α : Type} (M : α → NodeId → Prop)

/-- A pattern matches all that a key stands for. -/
def KeyMatches (q : α) (key : Key) : Prop := ∀ y ∈ key.nodes, M q y

@[simp] theorem keyMatches_node {q : α} {y : NodeId} : KeyMatches M q (.node y) ↔ M q y := by
  simp [KeyMatches]

/-- Whether the outcome of an evaluator is positive, given whether all of its links match. -/
def Evaluator.Holds : Evaluator → Prop → Prop
  | .and, all => all
  | .not, all => ¬ all

/-- The links that a pattern has decided on make it match: the abnormal ones together, and each of
the others. -/
def LinksHold (evaluator : Option Evaluator) (links : List (DecidedLink α)) : Prop :=
  (∀ l ∈ links, l.kind ≠ .abnormal → KeyMatches M l.target l.key) ∧
    ∀ e ∈ evaluator, e.Holds (∀ l ∈ links, l.kind = .abnormal → KeyMatches M l.target l.key)

variable {M}

theorem linksHold_of_abnormal {evaluator : Option Evaluator} {links : List (DecidedLink α)}
    (h : ∀ l ∈ links, l.kind = .abnormal) : LinksHold M evaluator links ↔
      ∀ e ∈ evaluator, e.Holds (∀ l ∈ links, KeyMatches M l.target l.key) := by
  have hall : (∀ l ∈ links, l.kind = .abnormal → KeyMatches M l.target l.key) ↔
      ∀ l ∈ links, KeyMatches M l.target l.key := forall₂_congr fun l hl => by simp [h l hl]
  rw [LinksHold, hall, and_iff_right]
  exact fun l hl hk => (hk (h l hl)).elim

end Hold

section Shares

variable {α : Type} {M : α → NodeId → Prop} {isStar : α → Bool} {slot : Nat} {qs : List α}
  {ys : List NodeId} {links : List (DecidedLink α)}

theorem SequenceSplit.exists_parts (h : SequenceSplit isStar slot qs ys links)
    (hl : ∀ l ∈ links, KeyMatches M l.target l.key) :
    ∃ parts, parts.flatten = ys ∧ List.Forall₂ (PartMatches M isStar) qs parts := by
  induction h with
  | nil => exact ⟨[], rfl, .nil⟩
  | @star slot q qs run ys links hq _ ih =>
    simp only [List.mem_cons, forall_eq_or_imp] at hl
    obtain ⟨parts, rfl, hparts⟩ := ih hl.2
    refine ⟨run :: parts, rfl, .cons ?_ hparts⟩
    rw [PartMatches, if_pos hq]
    exact hl.1
  | @one slot q qs y ys links hq _ ih =>
    simp only [List.mem_cons, forall_eq_or_imp] at hl
    obtain ⟨parts, rfl, hparts⟩ := ih hl.2
    refine ⟨[y] :: parts, rfl, .cons ?_ hparts⟩
    rw [PartMatches, if_neg (by simp [hq])]
    exact ⟨y, rfl, hl.1 y (by simp)⟩

theorem exists_sequenceSplit {parts : List (List NodeId)}
    (h : List.Forall₂ (PartMatches M isStar) qs parts) (slot : Nat) :
    ∃ links, SequenceSplit isStar slot qs parts.flatten links ∧
      ∀ l ∈ links, KeyMatches M l.target l.key := by
  induction h generalizing slot with
  | nil => exact ⟨[], .nil, by simp⟩
  | @cons q part qs parts hq _ ih =>
    obtain ⟨links, hsplit, hl⟩ := ih (slot + 1)
    rw [PartMatches] at hq
    split at hq
    next hstar =>
      refine ⟨_, .star hstar hsplit, ?_⟩
      simp only [List.mem_cons, forall_eq_or_imp]
      exact ⟨hq, hl⟩
    next hstar =>
      obtain ⟨y, rfl, hy⟩ := hq
      refine ⟨_, .one (Bool.eq_false_iff.mpr hstar) hsplit, ?_⟩
      simp only [List.mem_cons, forall_eq_or_imp]
      exact ⟨(keyMatches_node M).mpr hy, hl⟩

/-- Each pattern that is no star matches the element that it is given. -/
theorem Assigned.exists_given {rest : List NodeId} (h : Assigned isStar slot qs ys links rest)
    (hl : ∀ l ∈ links, KeyMatches M l.target l.key) :
    ∃ given, (given ++ rest).Perm ys ∧ List.Forall₂ M (qs.filter fun q => !isStar q) given := by
  induction h with
  | nil => exact ⟨[], .refl _, .nil⟩
  | star hq _ ih =>
    obtain ⟨given, hperm, hgiven⟩ := ih hl
    refine ⟨given, hperm, ?_⟩
    rwa [List.filter_cons_of_neg (by simp [hq])]
  | @one slot q qs ys rest y i links hq hi _ ih =>
    simp only [List.mem_cons, forall_eq_or_imp] at hl
    obtain ⟨given, hperm, hgiven⟩ := ih hl.2
    refine ⟨y :: given, (hperm.cons y).trans (perm_eraseIdx hi), ?_⟩
    rw [List.filter_cons_of_pos (by simp [hq])]
    exact .cons (hl.1 y (by simp)) hgiven

theorem exists_assigned {given rest : List NodeId} (hperm : (given ++ rest).Perm ys)
    (h : List.Forall₂ M (qs.filter fun q => !isStar q) given) (slot : Nat) :
    ∃ links rest', Assigned isStar slot qs ys links rest' ∧ rest'.Perm rest ∧
      ∀ l ∈ links, KeyMatches M l.target l.key := by
  induction qs generalizing ys given slot with
  | nil =>
    cases h
    exact ⟨[], ys, .nil, hperm.symm, by simp⟩
  | cons q qs ih =>
    by_cases hq : isStar q = true
    · rw [List.filter_cons_of_neg (by simp [hq])] at h
      obtain ⟨links, rest', hassigned, hrest, hl⟩ := ih hperm h (slot + 1)
      exact ⟨links, rest', .star hq hassigned, hrest, hl⟩
    · rw [List.filter_cons_of_pos (by simp [hq])] at h
      cases h with
      | @cons _ y _ given hy h =>
        obtain ⟨i, hi⟩ := List.mem_iff_getElem?.mp (hperm.mem_iff.mp List.mem_cons_self)
        have herase : (given ++ rest).Perm (ys.eraseIdx i) :=
          (List.perm_cons y).mp (hperm.trans (perm_eraseIdx hi).symm)
        obtain ⟨links, rest', hassigned, hrest, hl⟩ := ih herase h (slot + 1)
        refine ⟨_, rest', .one (Bool.eq_false_iff.mpr hq) hi hassigned, hrest, ?_⟩
        simp only [List.mem_cons, forall_eq_or_imp]
        exact ⟨(keyMatches_node M).mpr hy, hl⟩

theorem CollectionShare.memberMatches (h : CollectionShare isStar slot qs ys links)
    (hl : ∀ l ∈ links, KeyMatches M l.target l.key) :
    MemberMatches M isStar (.collection qs) (.collection ys) := by
  cases h with
  | full _ h =>
    obtain ⟨given, hperm, hgiven⟩ := h.exists_given hl
    exact ⟨given, [], hperm, hgiven, by simp⟩
  | @rest before after star rest links hqs hstar _ _ h =>
    simp only [List.mem_append, List.mem_singleton, or_imp, forall_and, forall_eq] at hl
    obtain ⟨given, hperm, hgiven⟩ := h.exists_given hl.1
    exact ⟨given, rest, hperm, hgiven, fun y hy => ⟨star, by simp [hqs], hstar, hl.2 y hy⟩⟩

/-- With at most one star, a collection that matches can be shared out. -/
theorem exists_collectionShare (hstars : (qs.filter isStar).length ≤ 1)
    (h : MemberMatches M isStar (.collection qs) (.collection ys)) (slot : Nat) :
    ∃ links, CollectionShare isStar slot qs ys links ∧
      ∀ l ∈ links, KeyMatches M l.target l.key := by
  obtain ⟨given, rest, hperm, hgiven, hrest⟩ := h
  obtain ⟨links, rest', hassigned, hperm', hl⟩ := exists_assigned hperm hgiven slot
  rcases hf : qs.filter isStar with _ | ⟨star, more⟩
  · have hqs : ∀ q ∈ qs, isStar q = false := by simpa [List.filter_eq_nil_iff] using hf
    have hnil : rest' = [] := by
      rw [List.eq_nil_iff_forall_not_mem]
      intro y hy
      obtain ⟨q, hq, hstar, -⟩ := hrest y (hperm'.mem_iff.mp hy)
      rw [hqs q hq] at hstar
      cases hstar
    exact ⟨links, .full hqs (hnil ▸ hassigned), hl⟩
  · obtain rfl : more = [] := by
      rw [hf] at hstars
      exact List.length_eq_zero_iff.mp (Nat.le_zero.mp (Nat.le_of_succ_le_succ hstars))
    obtain ⟨before, after, hqs, hbefore, hstar, hafter⟩ := List.filter_eq_cons_iff.mp hf
    have hafter : ∀ q ∈ after, isStar q = false := by simpa [List.filter_eq_nil_iff] using hafter
    have hbefore : ∀ q ∈ before, isStar q = false := by simpa using hbefore
    refine ⟨_, .rest hqs hstar hbefore hafter hassigned, ?_⟩
    simp only [List.mem_append, List.mem_singleton, or_imp, forall_and, forall_eq]
    refine ⟨hl, fun y hy => ?_⟩
    obtain ⟨q, hq, hstar', hy⟩ := hrest y (hperm'.mem_iff.mp hy)
    rw [hqs, List.mem_append, List.mem_cons] at hq
    rcases hq with hq | rfl | hq
    · rw [hbefore q hq] at hstar'
      cases hstar'
    · exact hy
    · rw [hafter q hq] at hstar'
      cases hstar'

/-- A member matches if and only if it can be shared out so that all links hold. -/
theorem memberMatches_iff {m : Member α} {x : Member NodeId} (hstars : m.StarsFit isStar) :
    MemberMatches M isStar m x ↔ ∃ links, MemberShare isStar slot m x links ∧
      ∀ l ∈ links, KeyMatches M l.target l.key := by
  constructor
  · intro h
    match m, x, h with
    | .single none, .single _, _ => exact ⟨[], rfl, by simp⟩
    | .single (some q), .single (some y), h =>
      exact ⟨_, rfl, List.forall_mem_singleton.mpr ((keyMatches_node M).mpr h)⟩
    | .sequence qs, .sequence ys, ⟨parts, hys, hparts⟩ =>
      subst hys
      exact exists_sequenceSplit hparts slot
    | .collection qs, .collection ys, h => exact exists_collectionShare hstars h slot
  · rintro ⟨links, h, hl⟩
    match m, x, h with
    | .single none, .single _, _ => trivial
    | .single (some q), .single (some y), h =>
      subst h
      exact (keyMatches_node M).mp (hl _ List.mem_cons_self)
    | .sequence qs, .sequence ys, h => exact h.exists_parts hl
    | .collection qs, .collection ys, h => exact h.memberMatches hl

theorem membersMatch_iff (slot : Nat) {ms : List (Member α)} {xs : List (Member NodeId)}
    (hstars : ∀ m ∈ ms, m.StarsFit isStar) :
    List.Forall₂ (MemberMatches M isStar) ms xs ↔ ∃ links, MembersShare isStar slot ms xs links ∧
      ∀ l ∈ links, KeyMatches M l.target l.key := by
  constructor
  · intro h
    induction h generalizing slot with
    | nil => exact ⟨[], .nil, by simp⟩
    | @cons m x ms xs hm _ ih =>
      simp only [List.mem_cons, forall_eq_or_imp] at hstars
      obtain ⟨links, hshare, hl⟩ := (memberMatches_iff hstars.1).mp hm
      obtain ⟨rest, hrest, hl'⟩ := ih (slot + m.width) hstars.2
      refine ⟨links ++ rest, .cons hshare hrest, ?_⟩
      simp only [List.mem_append, or_imp, forall_and]
      exact ⟨hl, hl'⟩
  · rintro ⟨links, h, hl⟩
    induction h with
    | nil => exact .nil
    | cons hm _ ih =>
      simp only [List.mem_cons, forall_eq_or_imp] at hstars
      simp only [List.mem_append, or_imp, forall_and] at hl
      exact .cons ((memberMatches_iff hstars.1).mpr ⟨_, hm, hl.1⟩) (ih hstars.2 hl.2)

end Shares

namespace Scene

variable {scene : Scene s} {p : PatternId}

/-- A link that is the only one, and is to be followed. -/
theorem linksHold_normal {α : Type} {M : α → NodeId → Prop} {slot : Nat} {q : α} {y : NodeId} :
    LinksHold M none [⟨slot, q, .normal, .node y⟩] ↔ M q y := by
  simp [LinksHold]

/-- An agent other than a star matches a node if and only if it may decide on links that hold. -/
theorem agentMatches_iff {M : Fin p → NodeId → Prop} {x : NodeId} {agent : Agent (Fin p)}
    (hstar : agent.isStar = false)
    (hfits : agent.Fits s (fun q => scene.patterns.isStar q.val) (scene.patterns.pattern p).kind) :
    scene.AgentMatches M (fun q => scene.patterns.isStar q.val) x agent ↔
      ∃ links path, scene.Offers p x agent links path ∧
        LinksHold M (agent.query fun q => scene.patterns.isStar q.val).evaluator links := by
  cases agent with
  | star restriction => cases hstar
  | standard value members =>
    simp only [AgentMatches, Offers, hfits.2.1.length_eq, membersMatch_iff 0 hfits.2.2]
    constructor
    · rintro ⟨hvalue, links, hshare, hl⟩
      exact ⟨links, none, ⟨hvalue, hshare, rfl⟩, fun l hmem _ => hl l hmem, by simp [Agent.query]⟩
    · rintro ⟨links, path, ⟨hvalue, hshare, -⟩, hl, -⟩
      exact ⟨hvalue, links, hshare, fun l hmem =>
        hl l hmem (hshare.kind_ne_abnormal hfits.2.2 hmem)⟩
  | stuff terminus restriction =>
    -- The restriction is asked of every site above the terminus, not of the terminus itself.
    have hhold (i : Nat) (site : Site) : LinksHold M (some .and)
        (⟨0, terminus, .normal, .node site.node⟩ :: (restriction.toList.flatMap fun r =>
          (pathTo (scene.forest.preorder x) i).dropLast.map fun above =>
            ⟨1, r, .abnormal, .node above.node⟩)) ↔
        M terminus site.node ∧ ∀ r ∈ restriction,
          ∀ z ∈ (pathTo (scene.forest.preorder x) i).dropLast.map Site.node, M r z := by
      cases restriction <;> simp [LinksHold, Evaluator.Holds, -List.map_dropLast]
    constructor
    · rintro ⟨above, y, hway, hy, habove⟩
      obtain ⟨i, site, hsite, rfl, rfl⟩ := hway.exists_pathTo
      exact ⟨_, _, ⟨i, site, hsite, rfl, rfl⟩, (hhold i site).mpr ⟨hy, habove⟩⟩
    · rintro ⟨links, path, ⟨i, site, hsite, rfl, rfl⟩, hl⟩
      exact ⟨_, _, Forest.way_pathTo hsite, (hhold i site).mp hl⟩
  | anyNode terminus =>
    constructor
    · rintro ⟨y, hy, hM⟩
      obtain ⟨i, site, hsite, hparent, rfl⟩ := Forest.exists_child_site_iff.mpr hy
      exact ⟨_, _, ⟨i, site, hsite, hparent, rfl, rfl⟩, linksHold_normal.mpr hM⟩
    · rintro ⟨links, path, ⟨i, site, hsite, hparent, rfl, rfl⟩, hl⟩
      exact ⟨site.node, Forest.exists_child_site_iff.mp ⟨i, site, hsite, hparent, rfl⟩,
        linksHold_normal.mp hl⟩
  | overlay through above => simp [AgentMatches, Offers, Agent.query, linksHold_normal]
  | slave through root => simp [AgentMatches, Offers, Agent.query, linksHold_normal]
  | greenGrass through => simp [AgentMatches, Offers, Agent.query, linksHold_normal]
  | notMatch q => simp [AgentMatches, Offers, Agent.query, LinksHold, Evaluator.Holds]
  | matchAll qs =>
    constructor
    · intro h
      refine ⟨_, _, ⟨rfl, rfl⟩, fun l hl _ => ?_, by simp [Agent.query]⟩
      obtain ⟨⟨q, slot⟩, hq, rfl⟩ := List.mem_map.mp hl
      exact (keyMatches_node M).mpr (h q (List.fst_mem_of_mem_zipIdx hq))
    · rintro ⟨links, path, ⟨rfl, rfl⟩, hl, -⟩ q hq
      obtain ⟨slot, hslot⟩ := List.mem_iff_getElem?.mp hq
      have hzip : (q, slot) ∈ qs.zipIdx := List.mem_zipIdx_iff_getElem?.mpr hslot
      exact (keyMatches_node M).mp (hl _ (List.mem_map_of_mem hzip) (by simp))
  | matchAny qs =>
    constructor
    · rintro ⟨q, hq, h⟩
      obtain ⟨slot, hslot⟩ := List.mem_iff_getElem?.mp hq
      exact ⟨_, _, ⟨slot, q, hslot, rfl, rfl⟩, linksHold_normal.mpr h⟩
    · rintro ⟨links, path, ⟨slot, q, hslot, rfl, rfl⟩, hl⟩
      exact ⟨q, List.mem_of_getElem? hslot, linksHold_normal.mp hl⟩

/-- A pattern matches what a key stands for if and only if it may decide on links that hold. -/
theorem keyMatches_iff (hw : scene.WellFormed) {key : Key} (htakes : scene.Takes p key) :
    KeyMatches scene.Matches p key ↔ ∃ links path, scene.Decides p key links path ∧
      LinksHold (fun (q : Fin p) y => scene.Matches q.val y) (scene.patterns.query p).evaluator
        links := by
  have hstar := scene.patterns.isStar_pattern p
  rw [PatternSet.query]
  cases key with
  | node x =>
    rw [keyMatches_node, Matches,
      agentMatches_iff (hstar.trans htakes) (hw.patterns.fits hw.schema p)]
    simp only [Decides, and_assoc, exists_and_left]
  | run ordered items =>
    rw [show scene.patterns.isStar p = true from htakes] at hstar
    cases hagent : (scene.patterns.pattern p).agent with
    | star restriction =>
      have hmatches (y : NodeId) : scene.Matches p y ↔
          s.isSubkind (scene.forest.kind y) (scene.patterns.pattern p).kind = true ∧
            ∀ r ∈ restriction, scene.Matches r.val y := by
        rw [Matches, hagent]
        rfl
      have hhold : LinksHold (fun (q : Fin p) y => scene.Matches q.val y) (some .and)
          (restriction.toList.flatMap fun r => items.map fun y => ⟨0, r, .abnormal, .node y⟩) ↔
          ∀ y ∈ items, ∀ r ∈ restriction, scene.Matches r.val y := by
        cases restriction <;> simp [LinksHold, Evaluator.Holds]
      constructor
      · intro h
        refine ⟨_, _, ⟨restriction, hagent, fun y hy => ((hmatches y).mp (h y hy)).1, rfl, rfl⟩, ?_⟩
        exact hhold.mpr fun y hy => ((hmatches y).mp (h y hy)).2
      · rintro ⟨links, path, ⟨restriction', hagent', hkinds, rfl, rfl⟩, hl⟩ y hy
        cases hagent.symm.trans hagent'
        exact (hmatches y).mpr ⟨hkinds y hy, hhold.mp hl y hy⟩
    | _ => simp [hagent, Agent.isStar] at hstar

end Scene

end Espalier
