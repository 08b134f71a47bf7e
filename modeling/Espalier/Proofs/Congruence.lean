import Espalier.Proofs.Equality
import Espalier.Proofs.Occurrence
import Espalier.Proofs.Query

/-!
# Equal subjects are decided alike

Whatever a pattern may decide on one subject it may decide on an equal one: on the same links, with
equal keys.  The elements of a collection may stand in another order there, at any depth, so the
choices are others; but each element has an equal one to take its place.  The pattern on the other
side may be another one as well, so long as it refers to related patterns in the same places.
-/

namespace Espalier

variable {α β : Type} {T : α → β → Prop} {R : NodeId → NodeId → Prop}

/-- Two decided links have related targets and keys and agree otherwise. -/
structure DecidedLink.Alike (T : α → β → Prop) (R : NodeId → NodeId → Prop) (l : DecidedLink α)
    (l' : DecidedLink β) : Prop where
  slot_eq : l.slot = l'.slot
  kind_eq : l.kind = l'.kind
  target : T l.target l'.target
  key : l.key.Alike R l'.key

/-! ## Containers -/

theorem exists_append_of_forall₂ {xs₁ xs₂ : List α} {ys : List β}
    (h : List.Forall₂ T (xs₁ ++ xs₂) ys) :
    ∃ ys₁ ys₂, ys = ys₁ ++ ys₂ ∧ List.Forall₂ T xs₁ ys₁ ∧ List.Forall₂ T xs₂ ys₂ := by
  induction xs₁ generalizing ys with
  | nil => exact ⟨[], ys, rfl, .nil, h⟩
  | cons x xs₁ ih =>
    cases h with
    | cons hxy h =>
      obtain ⟨ys₁, ys₂, rfl, h₁, h₂⟩ := ih h
      exact ⟨_ :: ys₁, ys₂, rfl, .cons hxy h₁, h₂⟩

section Shares

variable {isStar : α → Bool} {isStar' : β → Bool} {slot : Nat} {ps : List α} {qs : List β}
  {xs ys : List NodeId} {links : List (DecidedLink α)}

theorem SequenceSplit.alike (hstar : ∀ p q, T p q → isStar' q = isStar p)
    (h : SequenceSplit isStar slot ps xs links) (hT : List.Forall₂ T ps qs)
    (hR : List.Forall₂ R xs ys) : ∃ links', SequenceSplit isStar' slot qs ys links' ∧
      List.Forall₂ (DecidedLink.Alike T R) links links' := by
  induction h generalizing qs ys with
  | nil =>
    cases hT
    cases hR
    exact ⟨[], .nil, .nil⟩
  | star hp _ ih =>
    cases hT with
    | cons hpq hT =>
      obtain ⟨run, ys, rfl, hrun, hR⟩ := exists_append_of_forall₂ hR
      obtain ⟨links', hsplit, hlinks⟩ := ih hT hR
      exact ⟨_, .star ((hstar _ _ hpq).trans hp) hsplit,
        .cons ⟨rfl, rfl, hpq, .sequence hrun⟩ hlinks⟩
  | one hp _ ih =>
    cases hT with
    | cons hpq hT =>
      cases hR with
      | cons hxy hR =>
        obtain ⟨links', hsplit, hlinks⟩ := ih hT hR
        exact ⟨_, .one ((hstar _ _ hpq).trans hp) hsplit,
          .cons ⟨rfl, rfl, hpq, .single (.some hxy)⟩ hlinks⟩

/-- An element taken from a collection has a partner, and what they leave is still related. -/
theorem exists_partner {i : Nat} {x : NodeId} (hi : xs[i]? = some x)
    (hR : Multiset.Rel R (xs : Multiset NodeId) (ys : Multiset NodeId)) :
    ∃ (j : Nat) (y : NodeId), ys[j]? = some y ∧ R x y ∧
      Multiset.Rel R (xs.eraseIdx i : Multiset NodeId) (ys.eraseIdx j : Multiset NodeId) := by
  rw [← Multiset.coe_eq_coe.mpr (perm_eraseIdx hi), ← Multiset.cons_coe] at hR
  obtain ⟨y, t, hxy, ht, hys⟩ := Multiset.rel_cons_left.mp hR
  have hy : y ∈ (ys : Multiset NodeId) := hys ▸ Multiset.mem_cons_self y t
  obtain ⟨j, hj⟩ := List.mem_iff_getElem?.mp (Multiset.mem_coe.mp hy)
  refine ⟨j, y, hj, hxy, ?_⟩
  rw [← Multiset.coe_eq_coe.mpr (perm_eraseIdx hj), ← Multiset.cons_coe,
    Multiset.cons_inj_right] at hys
  rwa [hys]

theorem Assigned.alike (hstar : ∀ p q, T p q → isStar' q = isStar p) {rest : List NodeId}
    (h : Assigned isStar slot ps xs links rest) (hT : List.Forall₂ T ps qs)
    (hR : Multiset.Rel R (xs : Multiset NodeId) (ys : Multiset NodeId)) :
    ∃ links' rest', Assigned isStar' slot qs ys links' rest' ∧
      List.Forall₂ (DecidedLink.Alike T R) links links' ∧
      Multiset.Rel R (rest : Multiset NodeId) (rest' : Multiset NodeId) := by
  induction h generalizing qs ys with
  | nil =>
    cases hT
    exact ⟨[], ys, .nil, .nil, hR⟩
  | star hp _ ih =>
    cases hT with
    | cons hpq hT =>
      obtain ⟨links', rest', h, hlinks, hrest⟩ := ih hT hR
      exact ⟨links', rest', .star ((hstar _ _ hpq).trans hp) h, hlinks, hrest⟩
  | one hp hi _ ih =>
    cases hT with
    | cons hpq hT =>
      obtain ⟨j, y, hj, hxy, hR⟩ := exists_partner hi hR
      obtain ⟨links', rest', h, hlinks, hrest⟩ := ih hT hR
      exact ⟨_, rest', .one ((hstar _ _ hpq).trans hp) hj h,
        .cons ⟨rfl, rfl, hpq, .single (.some hxy)⟩ hlinks, hrest⟩

theorem isStar_eq_false_of_forall₂ (hstar : ∀ p q, T p q → isStar' q = isStar p)
    (hT : List.Forall₂ T ps qs) (h : ∀ p ∈ ps, isStar p = false) : ∀ q ∈ qs, isStar' q = false := by
  induction hT with
  | nil => simp
  | cons hpq _ ih =>
    rw [List.forall_mem_cons] at h ⊢
    exact ⟨(hstar _ _ hpq).trans h.1, ih h.2⟩

theorem CollectionShare.alike (hstar : ∀ p q, T p q → isStar' q = isStar p)
    (h : CollectionShare isStar slot ps xs links) (hT : List.Forall₂ T ps qs)
    (hR : Multiset.Rel R (xs : Multiset NodeId) (ys : Multiset NodeId)) :
    ∃ links', CollectionShare isStar' slot qs ys links' ∧
      List.Forall₂ (DecidedLink.Alike T R) links links' := by
  cases h with
  | full hps h =>
    obtain ⟨links', rest', h, hlinks, hrest⟩ := h.alike hstar hT hR
    obtain rfl : rest' = [] := by simpa using Multiset.rel_zero_left.mp hrest
    exact ⟨links', .full (isStar_eq_false_of_forall₂ hstar hT hps) h, hlinks⟩
  | rest hps hst hbefore hafter h =>
    obtain ⟨links', rest', h, hlinks, hrest⟩ := h.alike hstar hT hR
    subst hps
    obtain ⟨before', qs, rfl, hTb, hT⟩ := exists_append_of_forall₂ hT
    cases hT with
    | cons hpq hTa =>
      refine ⟨_, .rest rfl ((hstar _ _ hpq).trans hst)
        (isStar_eq_false_of_forall₂ hstar hTb hbefore)
        (isStar_eq_false_of_forall₂ hstar hTa hafter) h, ?_⟩
      exact List.rel_append hlinks (.cons ⟨by rw [hTb.length_eq], rfl, hpq, .collection hrest⟩ .nil)

end Shares

/-! ## Patterns that refer to related patterns -/

/-- Two members of patterns refer to related patterns in the same places. -/
inductive Member.Parallel (T : α → β → Prop) : Member α → Member β → Prop where
  | single {p : Option α} {q : Option β} (h : Option.Rel T p q) : Parallel T (.single p) (.single q)
  | sequence {ps : List α} {qs : List β} (h : List.Forall₂ T ps qs) :
      Parallel T (.sequence ps) (.sequence qs)
  | collection {ps : List α} {qs : List β} (h : List.Forall₂ T ps qs) :
      Parallel T (.collection ps) (.collection qs)

/-- Two agents refer to related patterns in the same places and agree otherwise. -/
inductive Agent.Parallel (T : α → β → Prop) : Agent α → Agent β → Prop where
  | standard {value : Option Value} {ms : List (Member α)} {ms' : List (Member β)}
      (h : List.Forall₂ (Member.Parallel T) ms ms') :
      Parallel T (.standard value ms) (.standard value ms')
  | star {r : Option α} {r' : Option β} (h : Option.Rel T r r') : Parallel T (.star r) (.star r')
  | stuff {t : α} {t' : β} {r : Option α} {r' : Option β} (ht : T t t') (hr : Option.Rel T r r') :
      Parallel T (.stuff t r) (.stuff t' r')
  | anyNode {t : α} {t' : β} (h : T t t') : Parallel T (.anyNode t) (.anyNode t')
  | overlay {t o : α} {t' o' : β} (ht : T t t') (ho : T o o') :
      Parallel T (.overlay t o) (.overlay t' o')
  | notMatch {p : α} {q : β} (h : T p q) : Parallel T (.notMatch p) (.notMatch q)
  | matchAll {ps : List α} {qs : List β} (h : List.Forall₂ T ps qs) :
      Parallel T (.matchAll ps) (.matchAll qs)
  | matchAny {ps : List α} {qs : List β} (h : List.Forall₂ T ps qs) :
      Parallel T (.matchAny ps) (.matchAny qs)
  | greenGrass {t : α} {t' : β} (h : T t t') : Parallel T (.greenGrass t) (.greenGrass t')
  | slave {t r : α} {t' r' : β} (ht : T t t') (hr : T r r') : Parallel T (.slave t r) (.slave t' r')

theorem Agent.Parallel.refl {T : α → α → Prop} (hT : ∀ p, T p p) (a : Agent α) :
    a.Parallel T a := by
  have hoption (r : Option α) : Option.Rel T r r := by
    cases r with
    | none => exact .none
    | some p => exact .some (hT p)
  have hlist (ps : List α) : List.Forall₂ T ps ps := List.forall₂_same.mpr fun p _ => hT p
  cases a with
  | standard value ms =>
    refine .standard (List.forall₂_same.mpr fun m _ => ?_)
    cases m with
    | single p => exact .single (hoption p)
    | sequence ps => exact .sequence (hlist ps)
    | collection ps => exact .collection (hlist ps)
  | star r => exact .star (hoption r)
  | stuff t r => exact .stuff (hT t) (hoption r)
  | anyNode t => exact .anyNode (hT t)
  | overlay t o => exact .overlay (hT t) (hT o)
  | notMatch p => exact .notMatch (hT p)
  | matchAll ps => exact .matchAll (hlist ps)
  | matchAny ps => exact .matchAny (hlist ps)
  | greenGrass t => exact .greenGrass (hT t)
  | slave t r => exact .slave (hT t) (hT r)

theorem Agent.Parallel.flip {a : Agent α} {a' : Agent β} (h : a.Parallel T a') :
    a'.Parallel (fun q p => T p q) a := by
  have hoption {r : Option α} {r' : Option β} (h : Option.Rel T r r') :
      Option.Rel (fun q p => T p q) r' r := by
    cases h with
    | none => exact .none
    | some h => exact .some h
  cases h with
  | standard h =>
    refine .standard (h.flip.imp fun m m' hm => ?_)
    cases hm with
    | single h => exact .single (hoption h)
    | sequence h => exact .sequence h.flip
    | collection h => exact .collection h.flip
  | star h => exact .star (hoption h)
  | stuff ht hr => exact .stuff ht (hoption hr)
  | anyNode h => exact .anyNode h
  | overlay ht ho => exact .overlay ht ho
  | notMatch h => exact .notMatch h
  | matchAll h => exact .matchAll h.flip
  | matchAny h => exact .matchAny h.flip
  | greenGrass h => exact .greenGrass h
  | slave ht hr => exact .slave ht hr

/-- What is related by name is so without the names. -/
theorem Agent.Parallel.of_map {γ δ : Type} {g : α → γ} {g' : β → δ} {U : γ → δ → Prop} {a : Agent α}
    {a' : Agent β} (h : (a.map g).Parallel U (a'.map g')) :
    a.Parallel (fun p q => U (g p) (g' q)) a' := by
  have hoption {r : Option α} {r' : Option β} (h : Option.Rel U (r.map g) (r'.map g')) :
      Option.Rel (fun p q => U (g p) (g' q)) r r' := by
    cases r <;> cases r' <;> cases h
    · exact .none
    · exact .some ‹_›
  have hlist {ps : List α} {qs : List β} (h : List.Forall₂ U (ps.map g) (qs.map g')) :
      List.Forall₂ (fun p q => U (g p) (g' q)) ps qs := by
    simpa [List.forall₂_map_left_iff, List.forall₂_map_right_iff] using h
  have hmember {m : Member α} {m' : Member β} (h : (m.map g).Parallel U (m'.map g')) :
      m.Parallel (fun p q => U (g p) (g' q)) m' := by
    cases m <;> cases m' <;> cases h
    · exact .single (hoption ‹_›)
    · exact .sequence (hlist ‹_›)
    · exact .collection (hlist ‹_›)
  cases a <;> cases a' <;> cases h
  case standard.standard.standard h =>
    rw [List.forall₂_map_left_iff, List.forall₂_map_right_iff] at h
    exact .standard (h.imp fun _ _ => hmember)
  case star.star.star h => exact .star (hoption h)
  case stuff.stuff.stuff ht hr => exact .stuff ht (hoption hr)
  case anyNode.anyNode.anyNode h => exact .anyNode h
  case overlay.overlay.overlay ht ho => exact .overlay ht ho
  case notMatch.notMatch.notMatch h => exact .notMatch h
  case matchAll.matchAll.matchAll h => exact .matchAll (hlist h)
  case matchAny.matchAny.matchAny h => exact .matchAny (hlist h)
  case greenGrass.greenGrass.greenGrass h => exact .greenGrass h
  case slave.slave.slave ht hr => exact .slave ht hr

theorem Agent.Parallel.isStar_eq {a : Agent α} {a' : Agent β} (h : a.Parallel T a') :
    a.isStar = a'.isStar := by
  cases h <;> rfl

section Members

variable {isStar : α → Bool} {isStar' : β → Bool}

theorem Member.Parallel.width_eq {m : Member α} {m' : Member β} (h : m.Parallel T m') :
    m.width = m'.width := by
  cases h with
  | single => rfl
  | sequence h => exact h.length_eq
  | collection h => exact h.length_eq

theorem MemberShare.alike (hstar : ∀ p q, T p q → isStar' q = isStar p) {slot : Nat} {m : Member α}
    {m' : Member β} {x y : Member NodeId} {links : List (DecidedLink α)}
    (h : MemberShare isStar slot m x links) (hT : m.Parallel T m') (hR : x.Alike R y) :
    ∃ links', MemberShare isStar' slot m' y links' ∧
      List.Forall₂ (DecidedLink.Alike T R) links links' := by
  cases hT with
  | single hpq =>
    cases hR with
    | single hcd =>
      cases hpq with
      | none =>
        obtain rfl : links = [] := by simpa [MemberShare] using h
        exact ⟨[], by simp [MemberShare], .nil⟩
      | some hpq =>
        cases hcd with
        | none => simp [MemberShare] at h
        | some hcd =>
          obtain rfl : links = [_] := h
          exact ⟨_, rfl, .cons ⟨rfl, rfl, hpq, .single (.some hcd)⟩ .nil⟩
    | _ => simp [MemberShare] at h
  | sequence hT =>
    cases hR with
    | sequence hR => exact SequenceSplit.alike hstar h hT hR
    | _ => simp [MemberShare] at h
  | collection hT =>
    cases hR with
    | collection hR => exact CollectionShare.alike hstar h hT hR
    | _ => simp [MemberShare] at h

theorem MembersShare.alike (hstar : ∀ p q, T p q → isStar' q = isStar p) {slot : Nat}
    {ms : List (Member α)} {ms' : List (Member β)} {xs ys : List (Member NodeId)}
    {links : List (DecidedLink α)} (h : MembersShare isStar slot ms xs links)
    (hT : List.Forall₂ (Member.Parallel T) ms ms') (hR : List.Forall₂ (Member.Alike R) xs ys) :
    ∃ links', MembersShare isStar' slot ms' ys links' ∧
      List.Forall₂ (DecidedLink.Alike T R) links links' := by
  induction h generalizing ms' ys with
  | nil =>
    cases hT
    cases hR
    exact ⟨[], .nil, .nil⟩
  | cons hm _ ih =>
    cases hT with
    | cons hmm' hT =>
      cases hR with
      | cons hxy hR =>
        obtain ⟨these, hthese, hlinks⟩ := hm.alike hstar hmm' hxy
        obtain ⟨rest, hrest, hlinks'⟩ := ih hT hR
        rw [hmm'.width_eq] at hrest
        exact ⟨_, .cons hthese hrest, List.rel_append hlinks hlinks'⟩

end Members

/-! ## Decisions -/

theorem forall₂_zipIdx {ps : List α} {qs : List β} (h : List.Forall₂ T ps qs) (k : Nat) :
    List.Forall₂ (fun a b => T a.1 b.1 ∧ a.2 = b.2) (ps.zipIdx k) (qs.zipIdx k) := by
  induction h generalizing k with
  | nil => exact .nil
  | cons hpq _ ih => exact .cons ⟨hpq, rfl⟩ (ih (k + 1))

/-- Two links have related targets and agree otherwise. -/
structure Link.Parallel (T : α → β → Prop) (l : Link α) (l' : Link β) : Prop where
  slot_eq : l.slot = l'.slot
  kind_eq : l.kind = l'.kind
  target : T l.target l'.target

section Query

variable {isStar : α → Bool} {isStar' : β → Bool}

theorem parallel_memberLinks (hstar : ∀ p q, T p q → isStar' q = isStar p) {m : Member α}
    {m' : Member β} (h : m.Parallel T m') (slot : Nat) :
    List.Forall₂ (Link.Parallel T) (memberLinks isStar slot m) (memberLinks isStar' slot m') := by
  have hchildren : List.Forall₂ T m.children m'.children := by
    cases h with
    | single h =>
      cases h with
      | none => exact .nil
      | some h => exact .cons h .nil
    | sequence h => exact h
    | collection h => exact h
  rw [memberLinks, memberLinks, List.forall₂_map_left_iff, List.forall₂_map_right_iff]
  refine (forall₂_zipIdx hchildren 0).imp ?_
  rintro ⟨p, k⟩ ⟨q, k'⟩ ⟨hpq, rfl⟩
  exact ⟨rfl, by simp [hstar p q hpq], hpq⟩

theorem parallel_membersLinks (hstar : ∀ p q, T p q → isStar' q = isStar p) {ms : List (Member α)}
    {ms' : List (Member β)} (h : List.Forall₂ (Member.Parallel T) ms ms') (slot : Nat) :
    List.Forall₂ (Link.Parallel T) (membersLinks isStar slot ms)
      (membersLinks isStar' slot ms') := by
  induction h generalizing slot with
  | nil => exact .nil
  | cons hm _ ih =>
    rw [membersLinks, membersLinks, hm.width_eq]
    exact List.rel_append (parallel_memberLinks hstar hm slot) (ih _)

/-- Agents that refer to related patterns in the same places have links to them at the same
slots. -/
theorem Agent.Parallel.query (hstar : ∀ p q, T p q → isStar' q = isStar p) {a : Agent α}
    {a' : Agent β} (h : a.Parallel T a') :
    List.Forall₂ (Link.Parallel T) (a.query isStar).links (a'.query isStar').links ∧
      (a.query isStar).evaluator = (a'.query isStar').evaluator := by
  have hoption (slot : Nat) (kind : LinkKind) {r : Option α} {r' : Option β}
      (h : Option.Rel T r r') :
      List.Forall₂ (Link.Parallel T) (r.toList.map (⟨slot, ·, kind⟩))
      (r'.toList.map (⟨slot, ·, kind⟩)) := by
    cases h with
    | none => exact .nil
    | some h => exact .cons ⟨rfl, rfl, h⟩ .nil
  have hlist {ps : List α} {qs : List β} (h : List.Forall₂ T ps qs) : List.Forall₂ (Link.Parallel T)
      (ps.zipIdx.map fun x => ⟨x.2, x.1, .normal⟩)
      (qs.zipIdx.map fun x => ⟨x.2, x.1, .normal⟩) := by
    rw [List.forall₂_map_left_iff, List.forall₂_map_right_iff]
    exact (forall₂_zipIdx h 0).imp fun _ _ hxy => ⟨hxy.2, rfl, hxy.1⟩
  cases h with
  | standard h => exact ⟨parallel_membersLinks hstar h 0, rfl⟩
  | star h => exact ⟨hoption 0 .abnormal h, rfl⟩
  | stuff ht hr => exact ⟨.cons ⟨rfl, rfl, ht⟩ (hoption 1 .abnormal hr), rfl⟩
  | anyNode h => exact ⟨.cons ⟨rfl, rfl, h⟩ .nil, rfl⟩
  | overlay ht => exact ⟨.cons ⟨rfl, rfl, ht⟩ .nil, rfl⟩
  | notMatch h => exact ⟨.cons ⟨rfl, rfl, h⟩ .nil, rfl⟩
  | matchAll h => exact ⟨hlist h, rfl⟩
  | matchAny h => exact ⟨hlist h, rfl⟩
  | greenGrass h => exact ⟨.cons ⟨rfl, rfl, h⟩ .nil, rfl⟩
  | slave ht => exact ⟨.cons ⟨rfl, rfl, ht⟩ .nil, rfl⟩

end Query

/-- Two lists of decided links are related, in order where links are followed. -/
structure LinksAlike (T : α → β → Prop) (R : NodeId → NodeId → Prop) (links : List (DecidedLink α))
    (links' : List (DecidedLink β)) : Prop where
  followed : List.Forall₂ (DecidedLink.Alike T R) (links.filter fun l => l.kind ≠ .abnormal)
    (links'.filter fun l => l.kind ≠ .abnormal)
  abnormal : Multiset.Rel (DecidedLink.Alike T R)
    (links.filter fun l => l.kind = .abnormal : List (DecidedLink α))
    (links'.filter fun l => l.kind = .abnormal : List (DecidedLink β))

theorem linksAlike_of_forall₂ {links : List (DecidedLink α)} {links' : List (DecidedLink β)}
    (h : List.Forall₂ (DecidedLink.Alike T R) links links') : LinksAlike T R links links' where
  followed := List.rel_filter (fun _ _ hl => by simp [hl.kind_eq]) h
  abnormal := rel_of_forall₂ (List.rel_filter (fun _ _ hl => by simp [hl.kind_eq]) h)

theorem linksAlike_of_abnormal {links : List (DecidedLink α)} {links' : List (DecidedLink β)}
    (hl : ∀ l ∈ links, l.kind = .abnormal) (hl' : ∀ l ∈ links', l.kind = .abnormal)
    (h : Multiset.Rel (DecidedLink.Alike T R) (links : Multiset (DecidedLink α))
      (links' : Multiset (DecidedLink β))) : LinksAlike T R links links' := by
  constructor
  · rw [List.filter_eq_nil_iff.mpr (by simpa using hl),
      List.filter_eq_nil_iff.mpr (by simpa using hl')]
    exact .nil
  · rwa [List.filter_eq_self.mpr (by simpa using hl), List.filter_eq_self.mpr (by simpa using hl')]

theorem LinksAlike.rel {α β : Type} {T : α → β → Prop} {links : List (DecidedLink α)}
    {links' : List (DecidedLink β)} (h : LinksAlike T R links links') :
    Multiset.Rel (DecidedLink.Alike T R) (links : Multiset (DecidedLink α))
      (links' : Multiset (DecidedLink β)) := by
  have hsplit {γ : Type} (ls : List (DecidedLink γ)) : (ls : Multiset (DecidedLink γ)) =
      ↑(ls.filter fun l => l.kind = .abnormal) + ↑(ls.filter fun l => l.kind ≠ .abnormal) := by
    rw [Multiset.coe_add, Multiset.coe_eq_coe]
    simpa using (List.filter_append_perm (fun l : DecidedLink γ => l.kind = .abnormal) ls).symm
  rw [hsplit links, hsplit links']
  exact h.abnormal.add (rel_of_forall₂ h.followed)

theorem LinksAlike.exists_right {α β : Type} {T : α → β → Prop} {links : List (DecidedLink α)}
    {links' : List (DecidedLink β)} (h : LinksAlike T R links links') {l : DecidedLink α}
    (hl : l ∈ links) : ∃ l' ∈ links', l.Alike T R l' :=
  Multiset.exists_mem_of_rel_of_mem h.rel hl

theorem LinksAlike.exists_left {α β : Type} {T : α → β → Prop} {links : List (DecidedLink α)}
    {links' : List (DecidedLink β)} (h : LinksAlike T R links links') {l' : DecidedLink β}
    (hl' : l' ∈ links') : ∃ l ∈ links, l.Alike T R l' :=
  Multiset.exists_mem_of_rel_of_mem (Multiset.rel_flip.mpr h.rel) hl'

variable {s : Schema}

namespace Key

variable {f : Forest s} {n : Nat} {key key' : Key}

theorem children_member (key : Key) : key.member.children = key.nodes := by
  rcases key with x | ⟨_ | _, xs⟩ <;> rfl

theorem alike_self {n : Nat} (h : ∀ x ∈ key.nodes, x < n) : key.Alike (f.EqualBelow n) key :=
  .refl fun x hx => .refl (h x (key.children_member ▸ hx))

theorem Alike.lt_left {n : Nat} (h : key.Alike (f.EqualBelow n) key') : ∀ x ∈ key.nodes, x < n := by
  intro x hx
  obtain ⟨y, -, hxy⟩ := h.exists_mem (key.children_member ▸ hx)
  exact hxy.left_lt

end Key

/-- A way down one subject has its like in an equal one. -/
theorem Forest.Way.alike {f : Forest s} (hR : ∀ a b, R a b → (f.get a).Alike R (f.get b))
    {x x' y : NodeId} {above : List NodeId} (h : f.Way x above y) (hx : R x x') :
    ∃ above' y', f.Way x' above' y' ∧ List.Forall₂ R above above' ∧ R y y' := by
  induction h with
  | refl => exact ⟨[], x', .refl, .nil, hx⟩
  | step _ hz ih =>
    obtain ⟨above', y', hway, habove, hy⟩ := ih
    obtain ⟨z', hz', hzz'⟩ := (hR _ _ hy).exists_mem hz
    exact ⟨_, z', .step hway hz', List.rel_append habove (.cons hy .nil), hzz'⟩

namespace Scene

/-- Two nodes that no pattern tells apart: equal ones, both from before the current run. -/
abbrev Equal (scene : Scene s) : NodeId → NodeId → Prop := scene.forest.EqualBelow scene.watermark

variable {scene : Scene s} {p p' : PatternId} {T : Fin p → Fin p' → Prop}

theorem Equal.kind_eq {x y : NodeId} (h : scene.Equal x y) :
    scene.forest.kind x = scene.forest.kind y := h.get.kind_eq

theorem Offers.alike {ps' : PatternSet s} {x y : NodeId} {agent : Agent (Fin p)}
    {agent' : Agent (Fin p')} {links : List (DecidedLink (Fin p))} {path : Option (List Site)}
    (hstar : ∀ q q', T q q' → ps'.isStar q'.val = scene.patterns.isStar q.val)
    (hkind : (ps'.pattern p').kind = (scene.patterns.pattern p).kind)
    (hagent : agent.Parallel T agent') (hxy : scene.Equal x y)
    (h : scene.Offers p x agent links path) :
    ∃ links' path', Offers { scene with patterns := ps' } p' y agent' links' path' ∧
      List.Forall₂ (DecidedLink.Alike T scene.Equal) links links' := by
  have hget := hxy.get
  -- A link to the node itself is alike whatever its slot and kind are.
  have link (slot : Nat) (kind : LinkKind) {q : Fin p} {q' : Fin p'} (hqq' : T q q') {c d : NodeId}
      (hcd : scene.Equal c d) : DecidedLink.Alike T scene.Equal ⟨slot, q, kind, .node c⟩
        ⟨slot, q', kind, .node d⟩ := ⟨rfl, rfl, hqq', .single (.some hcd)⟩
  cases hagent with
  | standard hms =>
    obtain ⟨hvalue, hshare, rfl⟩ := h
    obtain ⟨links', hshare', hlinks⟩ := hshare.alike hstar hms (List.forall₂_take _ hget.members)
    refine ⟨links', none, ⟨fun hv => hget.value_eq ▸ hvalue hv, ?_, rfl⟩, hlinks⟩
    rw [hkind]
    exact hshare'
  | star => exact h.elim
  | stuff ht hr =>
    obtain ⟨i, site, hi, rfl, rfl⟩ := h
    obtain ⟨above', y', hway, habove, hy⟩ :=
      (Forest.way_pathTo hi).alike (fun _ _ h => Forest.EqualBelow.get h) hxy
    obtain ⟨j, site', hj, rfl, rfl⟩ := hway.exists_pathTo
    refine ⟨_, _, ⟨j, site', hj, rfl, rfl⟩, .cons (link 0 .normal ht hy) ?_⟩
    cases hr with
    | none => exact .nil
    | some hr =>
      simp only [Option.toList_some, List.flatMap_singleton]
      rw [List.forall₂_map_left_iff, List.forall₂_map_right_iff] at habove ⊢
      exact habove.imp fun _ _ h => link 1 .abnormal hr h
  | anyNode ht =>
    obtain ⟨i, site, hi, hparent, rfl, rfl⟩ := h
    have hmem : site.node ∈ scene.forest.children x :=
      Forest.exists_child_site_iff.mp ⟨i, site, hi, hparent, rfl⟩
    obtain ⟨d, hd, hcd⟩ := hget.exists_mem hmem
    obtain ⟨j, site', hj, hparent', rfl⟩ := Forest.exists_child_site_iff.mpr hd
    exact ⟨_, _, ⟨j, site', hj, hparent', rfl, rfl⟩, .cons (link 0 .normal ht hcd) .nil⟩
  | overlay ht =>
    obtain ⟨rfl, rfl⟩ := h
    exact ⟨_, _, ⟨rfl, rfl⟩, .cons (link 0 .normal ht hxy) .nil⟩
  | notMatch hq =>
    obtain ⟨rfl, rfl⟩ := h
    exact ⟨_, _, ⟨rfl, rfl⟩, .cons (link 0 .abnormal hq hxy) .nil⟩
  | matchAll hqs =>
    obtain ⟨rfl, rfl⟩ := h
    refine ⟨_, _, ⟨rfl, rfl⟩, ?_⟩
    rw [List.forall₂_map_left_iff, List.forall₂_map_right_iff]
    refine (forall₂_zipIdx hqs 0).imp ?_
    rintro ⟨q, slot⟩ ⟨q', slot'⟩ ⟨hqq', rfl⟩
    exact link slot .normal hqq' hxy
  | matchAny hqs =>
    obtain ⟨slot, q, hq, rfl, rfl⟩ := h
    obtain ⟨⟨q', slot'⟩, hmem, hqq', rfl⟩ := exists_mem_of_forall₂ (forall₂_zipIdx hqs 0)
      (List.mem_zipIdx_iff_getElem?.mpr hq : (q, slot) ∈ _)
    exact ⟨_, _, ⟨slot, q', List.mem_zipIdx_iff_getElem?.mp hmem, rfl, rfl⟩,
      .cons (link slot .normal hqq' hxy) .nil⟩
  | greenGrass ht =>
    obtain ⟨-, rfl, rfl⟩ := h
    exact ⟨_, _, ⟨hxy.right_lt, rfl, rfl⟩, .cons (link 0 .normal ht hxy) .nil⟩
  | slave ht =>
    obtain ⟨rfl, rfl⟩ := h
    exact ⟨_, _, ⟨rfl, rfl⟩, .cons (link 0 .normal ht hxy) .nil⟩

theorem Decides.alike {ps' : PatternSet s} {key key' : Key} {links : List (DecidedLink (Fin p))}
    {path : Option (List Site)}
    (hstar : ∀ q q', T q q' → ps'.isStar q'.val = scene.patterns.isStar q.val)
    (hkind : (ps'.pattern p').kind = (scene.patterns.pattern p).kind)
    (hagent : (scene.patterns.pattern p).agent.Parallel T (ps'.pattern p').agent)
    (hkey : key.Alike scene.Equal key') (h : scene.Decides p key links path) :
    ∃ links' path', Decides { scene with patterns := ps' } p' key' links' path' ∧
      LinksAlike T scene.Equal links links' := by
  cases key with
  | node x =>
    obtain ⟨y, rfl, hxy⟩ := hkey.exists_node
    obtain ⟨hsub, hoffers⟩ := h
    obtain ⟨links', path', hoffers', hlinks⟩ := hoffers.alike hstar hkind hagent hxy
    refine ⟨links', path', ⟨?_, hoffers'⟩, linksAlike_of_forall₂ hlinks⟩
    rw [hkind]
    exact hxy.kind_eq ▸ hsub
  | run ordered xs =>
    obtain ⟨ys, rfl, hxs⟩ := hkey.exists_run
    obtain ⟨restriction, hr, hsub, rfl, rfl⟩ := h
    rw [hr] at hagent
    generalize hagent' : (ps'.pattern p').agent = agent' at hagent
    cases hagent with
    | star hr' =>
      have hsub' : ∀ y ∈ ys, s.isSubkind (scene.forest.kind y) (ps'.pattern p').kind = true := by
        intro y hy
        obtain ⟨x, hx, hxy⟩ := Multiset.exists_mem_of_rel_of_mem (Multiset.rel_flip.mpr hxs) hy
        rw [hkind]
        exact Equal.kind_eq hxy ▸ hsub x hx
      refine ⟨_, _, ⟨_, hagent', hsub', rfl, rfl⟩, ?_⟩
      cases hr' with
      | none => exact linksAlike_of_forall₂ .nil
      | some hrr' =>
        simp only [Option.toList_some, List.flatMap_singleton]
        apply linksAlike_of_abnormal
        · simp
        · simp
        · rw [← Multiset.map_coe, ← Multiset.map_coe, Multiset.rel_map]
          exact hxs.mono fun _ _ _ _ hxy => ⟨rfl, rfl, hrr', .single (.some hxy)⟩

/-- What a pattern decides on one key, it may decide on an equal one. -/
theorem Decides.exists_alike {key key' : Key} (hkey : key.Alike scene.Equal key')
    {links : List (DecidedLink (Fin p))} {path : Option (List Site)}
    (h : scene.Decides p key links path) :
    ∃ links' path', scene.Decides p key' links' path' ∧ LinksAlike Eq scene.Equal links links' :=
  h.alike (T := Eq) (fun q q' hqq' => by rw [hqq']) rfl (.refl (fun _ => rfl) _) hkey

/-- What is decided on for a key from before the current run is held against keys from before it. -/
theorem Decides.lt_watermark {key : Key} (hkey : ∀ x ∈ key.nodes, x < scene.watermark)
    {links : List (DecidedLink (Fin p))} {path : Option (List Site)}
    (h : scene.Decides p key links path) {l : DecidedLink (Fin p)} (hl : l ∈ links) :
    ∀ x ∈ l.key.nodes, x < scene.watermark := by
  obtain ⟨links', -, -, hlinks⟩ := h.exists_alike (Key.alike_self hkey)
  obtain ⟨l', -, hll'⟩ := hlinks.exists_right hl
  exact hll'.key.lt_left

end Scene

end Espalier
