import Espalier.Proofs.Query
import Mathlib.Data.List.Nodup

/-!
# Declared and decided queries

The query of a pattern says what the pattern will decide before any subject is seen: which links
there are, at which slots, and how many choices are asked for.  Held against a subject the pattern
keeps to that, whatever the choices are and wherever it fails: a mismatch asks for all the choices
that are declared, too, and a match fills each link that is declared.
-/

namespace Espalier

/-! ## Counting choices -/

/-- From `c` the next `n` decisions have been taken: what was on record is still there, and what was
not has been added. -/
structure Conjecture.Advances (c : Conjecture) (n : Nat) (c' : Conjecture) : Prop where
  cursor_eq : c'.cursor = c.cursor + n
  isPrefix : c.decisions <+: c'.decisions
  length_eq : c.cursor ≤ c.decisions.length →
    c'.decisions.length = max c.decisions.length (c.cursor + n)

namespace Conjecture

variable {c c' c'' : Conjecture} {m n : Nat}

theorem advances_zero (c : Conjecture) : c.Advances 0 c where
  cursor_eq := rfl
  isPrefix := List.prefix_rfl
  length_eq h := by omega

theorem Advances.trans (h : c.Advances m c') (h' : c'.Advances n c'') : c.Advances (m + n) c'' where
  cursor_eq := by rw [h'.cursor_eq, h.cursor_eq, Nat.add_assoc]
  isPrefix := h.isPrefix.trans h'.isPrefix
  length_eq hc := by
    have hcursor := h.cursor_eq
    have hlength := h.length_eq hc
    rw [h'.length_eq (by omega), hlength, hcursor]
    omega

/-- A decision is taken, unless one on record was offered other choices. -/
theorem decide_cases (offer : Offer) (c : Conjecture) :
    (∃ i c', decide offer c = .ok i c' ∧ c.Advances 1 c') ∨
      ∃ old c', decide offer c = .error (.decisionReshaped c.cursor old offer) c' := by
  unfold decide
  split
  next d hd =>
    have hlt := (List.getElem?_eq_some_iff.mp hd).1
    split
    next => exact .inl ⟨_, _, rfl, rfl, List.prefix_rfl, fun _ => by simp only; omega⟩
    next => exact .inr ⟨_, _, rfl⟩
  next hnone =>
    have hle := List.getElem?_eq_none_iff.mp hnone
    refine .inl ⟨_, _, rfl, rfl, List.prefix_append _ _, fun _ => ?_⟩
    simp only [List.length_append, List.length_singleton]
    omega

end Conjecture

namespace Walk

variable {α : Type} {Q : α → Prop} {n : Nat} {w : Walk α}

/-- Whatever is chosen, the walk asks for `n` choices and ends with `Q`. -/
inductive AsksFor (Q : α → Prop) : Nat → Walk α → Prop where
  | done {a : α} (h : Q a) : AsksFor Q 0 (.done a)
  | ask {n : Nat} {offer : Offer} {next : Nat → Walk α} (h : ∀ i, AsksFor Q n (next i)) :
      AsksFor Q (n + 1) (.ask offer next)

/-- Under any conjecture such a walk takes `n` decisions, unless one of them is on record for other
choices. -/
theorem AsksFor.run (h : AsksFor Q n w) (c : Conjecture) :
    (∃ a c', w.run c = .ok a c' ∧ c.Advances n c' ∧ Q a) ∨
      ∃ i old new c', w.run c = .error (.decisionReshaped i old new) c' := by
  induction h generalizing c with
  | done ha => exact .inl ⟨_, c, rfl, c.advances_zero, ha⟩
  | @ask n offer next _ ih =>
    rcases Conjecture.decide_cases offer c with ⟨i, c₁, hdecide, hfirst⟩ | ⟨old, c₁, hdecide⟩
    · have hrun : (Walk.ask offer next).run c = (next i).run c₁ := by rw [Walk.run, hdecide]
      rw [hrun, Nat.add_comm n 1]
      rcases ih i c₁ with ⟨a, c', hok, hrest, ha⟩ | hreshaped
      · exact .inl ⟨a, c', hok, hfirst.trans hrest, ha⟩
      · exact .inr hreshaped
    · exact .inr ⟨_, old, offer, c₁, by rw [Walk.run, hdecide]⟩

end Walk

namespace Attempt

variable {α β : Type} {P : α → Prop} {Q : β → Prop} {m n : Nat}

/-- Whatever is chosen, the attempt asks for `n` choices before it succeeds with `Q`, and for no
more than that before a mismatch.  It comes to no fault. -/
inductive Spends (Q : α → Prop) : Nat → Walk (Except Halt α) → Prop where
  | ok {a : α} (h : Q a) : Spends Q 0 (.done (.ok a))
  | mismatch (n : Nat) (m : Mismatch) : Spends Q n (.done (.error (.mismatch m)))
  | ask {n : Nat} {offer : Offer} {next : Nat → Walk (Except Halt α)}
      (h : ∀ i, Spends Q n (next i)) :
      Spends Q (n + 1) (.ask offer next)

theorem Spends.mono {P' : α → Prop} {w : Walk (Except Halt α)} (h : Spends P n w)
    (hP : ∀ a, P a → P' a) : Spends P' n w := by
  induction h with
  | ok ha => exact .ok (hP _ ha)
  | mismatch n m => exact .mismatch n m
  | ask _ ih => exact .ask ih

theorem spends_pure {a : α} (h : P a) : Spends P 0 (pure a : Attempt α) := .ok h

theorem spends_mismatch (n : Nat) (m : Mismatch) : Spends P n (Attempt.mismatch m : Attempt α) :=
  .mismatch n m

theorem spends_choose {start stop : Nat} {k : Nat → Attempt β} (h : ∀ i, Spends Q n (k i)) :
    Spends Q (n + 1) (choose start stop >>= k : Attempt β) := .ask h

theorem spends_bind {x : Attempt α} {k : α → Attempt β} (hx : Spends P m x)
    (hk : ∀ a, P a → Spends Q n (k a)) : Spends Q (m + n) (x >>= k : Attempt β) := by
  change Spends Q (m + n) (Walk.bind x _)
  induction hx with
  | ok ha =>
    rw [Nat.zero_add]
    exact hk _ ha
  | mismatch _ e => exact .mismatch _ e
  | ask _ ih =>
    rw [Nat.add_right_comm]
    exact .ask ih

/-- What is done with the result of an attempt takes no choices. -/
theorem spends_map {x : Attempt α} {g : α → β} (hx : Spends P n x) (hg : ∀ a, P a → Q (g a)) :
    Spends Q n (do return g (← x) : Attempt β) :=
  spends_bind hx fun a ha => spends_pure (hg a ha)

/-- A result with `Q`, or a mismatch. -/
def Settles (Q : α → Prop) : Except Halt α → Prop
  | .ok a => Q a
  | .error (.mismatch _) => True
  | .error (.fault _) => False

/-- Padded to `n` choices, the attempt asks for as many of them wherever it ends. -/
theorem Spends.padTo {w : Walk (Except Halt α)} (h : Spends P n w) :
    Walk.AsksFor (Settles P) n (Walk.padTo n w) := by
  induction h with
  | ok ha => exact .done ha
  | mismatch n m =>
    rw [Walk.padTo]
    induction n with
    | zero => exact .done trivial
    | succ n ih => exact .ask fun _ => ih
  | ask _ ih => exact .ask ih

end Attempt

/-! ## Containers and members -/

section Members

variable {α : Type} {isStar : α → Bool} {misfit : Fault}

open Attempt

theorem spends_sequenceLinks (slot used : Nat) (ps : List α) (xs : List NodeId) :
    Spends (SequenceSplit isStar slot ps xs) (ps.dropLast.filter isStar).length
      (sequenceLinks isStar slot used ps xs) := by
  induction ps generalizing slot used xs with
  | nil =>
    cases xs with
    | nil => exact spends_pure .nil
    | cons x xs => exact spends_mismatch _ _
  | cons p ps ih =>
    rw [sequenceLinks.eq_def]
    dsimp only
    split
    next hp =>
      split
      next hps =>
        -- A star at the end takes what is left and decides nothing.
        obtain rfl := List.isEmpty_iff.mp hps
        have hsplit : SequenceSplit isStar slot [p] (xs ++ []) _ := .star hp .nil
        rw [List.append_nil] at hsplit
        exact spends_pure hsplit
      next hps =>
        have hcount : ((p :: ps).dropLast.filter isStar).length =
            (ps.dropLast.filter isStar).length + 1 := by
          rw [List.dropLast_cons_of_ne_nil (by simpa using hps), List.filter_cons_of_pos hp,
            List.length_cons]
        rw [hcount]
        split
        next =>
          refine spends_choose fun stop => spends_map (ih (slot + 1) stop _) fun rest hrest => ?_
          have hsplit : SequenceSplit isStar slot (p :: ps)
              (xs.take (stop - used) ++ xs.drop (stop - used)) _ := .star hp hrest
          rwa [List.take_append_drop] at hsplit
        next => exact spends_mismatch _ _
    next hp =>
      have hcount : ((p :: ps).dropLast.filter isStar).length =
          (ps.dropLast.filter isStar).length := by
        cases ps with
        | nil => rfl
        | cons q ps => rw [List.dropLast_cons_of_ne_nil (by simp), List.filter_cons_of_neg hp]
      rw [hcount]
      split
      next => exact spends_mismatch _ _
      next x xs =>
        exact spends_map (ih (slot + 1) (used + 1) xs) fun rest hrest =>
          .one (Bool.eq_false_iff.mpr hp) hrest

theorem spends_assign (slot : Nat) (ps : List α) (xs : List NodeId) :
    Spends (fun r => Assigned isStar slot ps xs r.1 r.2) (ps.filter fun p => !isStar p).length
      (assign isStar slot ps xs) := by
  induction ps generalizing slot xs with
  | nil => exact spends_pure .nil
  | cons p ps ih =>
    rw [assign]
    split
    next hp =>
      rw [List.filter_cons_of_neg (by simp [hp])]
      exact (ih (slot + 1) xs).mono fun r hr => .star hp hr
    next hp =>
      rw [List.filter_cons_of_pos (by simp [hp]), List.length_cons]
      refine spends_choose fun i => ?_
      split
      next => exact spends_mismatch _ _
      next x hx =>
        exact spends_map (ih (slot + 1) (xs.eraseIdx i)) fun r hr =>
          .one (Bool.eq_false_iff.mpr hp) hx hr

theorem spends_collectionLinks (slot : Nat) {ps : List α} (xs : List NodeId)
    (hstars : (ps.filter isStar).length ≤ 1) :
    Spends (CollectionShare isStar slot ps xs) (ps.filter fun p => !isStar p).length
      (collectionLinks isStar slot ps xs) := by
  unfold collectionLinks
  split
  next hfind =>
    split
    next hlen =>
      exact spends_map (spends_assign slot ps xs) fun r hr =>
        CollectionShare.of_assigned (find?_zipIdx_eq_none hfind) hlen hr
    next => exact spends_mismatch _ _
  next star i hfind =>
    obtain ⟨before, after, rfl, rfl, hstar, hbefore, hafter⟩ := find?_zipIdx_sole hstars hfind
    split
    next =>
      exact spends_map (spends_assign slot _ xs) fun r hr => .rest rfl hstar hbefore hafter hr
    next => exact spends_mismatch _ _

theorem spends_membersDecided (slot : Nat) {ms : List (Member α)} {xs : List (Member NodeId)}
    (hcat : ms.map Member.category = xs.map Member.category)
    (hstars : ∀ m ∈ ms, m.StarsFit isStar) :
    Spends (MembersShare isStar slot ms xs) (total (ms.map (memberDecisions isStar)))
      (membersDecided isStar misfit slot ms xs) := by
  induction ms generalizing slot xs with
  | nil =>
    obtain rfl : xs = [] := by simpa using hcat.symm
    rw [membersDecided.eq_def]
    exact spends_pure .nil
  | cons m ms ih =>
    cases xs with
    | nil => simp at hcat
    | cons x xs =>
      obtain ⟨hm, hms⟩ := List.cons.inj hcat
      rw [List.forall_mem_cons] at hstars
      have hrest (these : List (DecidedLink α)) (h : MemberShare isStar slot m x these) :
          Spends (MembersShare isStar slot (m :: ms) (x :: xs))
            (total (ms.map (memberDecisions isStar))) (do return these ++
              (← membersDecided isStar misfit (slot + m.width) ms xs) :
              Attempt (List (DecidedLink α))) :=
        spends_map (ih (slot + m.width) hms hstars.2) fun rest hrest => .cons h hrest
      rw [List.map_cons, total_cons]
      -- What the first member decides, in each category.
      rcases m with (_ | p) | ps | ps <;> rcases x with (_ | c) | items | items <;> try cases hm
      all_goals refine spends_bind ?_ hrest
      · exact spends_pure rfl
      · exact spends_pure rfl
      · exact spends_mismatch _ _
      · exact spends_pure rfl
      · exact spends_sequenceLinks slot 0 ps items
      · exact spends_collectionLinks slot items hstars.1

end Members

/-! ## Patterns -/

namespace Scene

variable {s : Schema} {scene : Scene s} {p : PatternId}

open Attempt

theorem spends_stuffLinks {terminus : Fin p} {restriction : Option (Fin p)} (x : NodeId) :
    Spends (fun r => scene.Offers p x (.stuff terminus restriction) r.1 r.2) 1
      (stuffLinks terminus restriction (scene.forest.preorder x)) := by
  refine spends_choose fun i => ?_
  split
  next => exact spends_mismatch _ _
  next site hsite => exact spends_pure ⟨i, site, hsite, rfl, rfl⟩

theorem spends_anyNodeLinks {terminus : Fin p} (x : NodeId) :
    Spends (fun r => scene.Offers p x (.anyNode terminus) r.1 r.2) 1
      (anyNodeLinks terminus (scene.forest.preorder x)) := by
  unfold anyNodeLinks
  dsimp only
  split
  next => exact spends_mismatch _ _
  next =>
    refine spends_choose fun i => ?_
    split
    next => exact spends_mismatch _ _
    next site index hsite =>
      have hmem := List.mem_filter.mp (List.mem_of_getElem? hsite)
      refine spends_pure ⟨index, site, ?_, by simpa using hmem.2, rfl, rfl⟩
      simpa using List.mem_zipIdx_iff_getElem?.mp hmem.1

theorem spends_decideNode (hw : scene.WellFormed) (x : NodeId)
    (hstar : scene.patterns.isStar p = false) :
    Spends (fun r => scene.Decides p (.node x) r.1 r.2) (scene.patterns.query p).decisions
      (scene.decideNode p x) := by
  unfold decideNode
  dsimp only
  rw [PatternSet.query]
  by_cases hk : s.isSubkind (scene.forest.kind x) (scene.patterns.pattern p).kind = true
  · rw [if_pos hk]
    simp only [Decides, hk, true_and]
    have hfits := hw.patterns.fits hw.schema p
    rw [← PatternSet.isStar_pattern] at hstar
    generalize (scene.patterns.pattern p).agent = agent at hfits hstar
    cases agent with
    | standard value members =>
      simp only [hw.forest.itemiseAs_eq hw.schema hk]
      split
      next => exact spends_mismatch _ _
      next hvalue =>
        refine spends_map (spends_membersDecided 0 (hw.category_eq hk hfits.2.1) hfits.2.2)
          fun links h => ?_
        exact ⟨fun hsome => not_not.mp fun hne => hvalue ⟨hsome, hne⟩, h, rfl⟩
    | star restriction => cases hstar
    | stuff terminus restriction => exact spends_stuffLinks x
    | anyNode terminus => exact spends_anyNodeLinks x
    | greenGrass through =>
      dsimp only
      split
      next => exact spends_mismatch _ _
      next hlt => exact spends_pure ⟨Nat.lt_of_not_le hlt, rfl, rfl⟩
    | matchAny qs =>
      refine spends_choose fun slot => ?_
      split
      next => exact spends_mismatch _ _
      next q hq => exact spends_pure ⟨slot, q, hq, rfl, rfl⟩
    | _ => exact spends_pure ⟨rfl, rfl⟩
  · rw [if_neg hk]
    exact spends_mismatch _ _

theorem spends_decideLinks (hw : scene.WellFormed) {key : Key} (htakes : scene.Takes p key) :
    Spends (fun r => scene.Decides p key r.1 r.2) (scene.patterns.query p).decisions
      (scene.decideLinks p key) := by
  have hstar := scene.patterns.isStar_pattern p
  unfold decideLinks
  split
  next restriction ordered items hagent =>
    have hnone : (scene.patterns.query p).decisions = 0 := by rw [PatternSet.query, hagent]; rfl
    rw [hnone]
    dsimp only
    split
    next hall => exact spends_pure ⟨restriction, hagent, List.all_eq_true.mp hall, rfl, rfl⟩
    next => exact spends_mismatch _ _
  next restriction x hagent =>
    rw [hagent, htakes] at hstar
    cases hstar
  next ordered items hagent =>
    rw [htakes] at hstar
    cases h : (scene.patterns.pattern p).agent with
    | star restriction => exact (hagent restriction h).elim
    | _ => simp [h, Agent.isStar] at hstar
  next x hagent => exact spends_decideNode hw x htakes

/-- Held against a key of the right shape, a pattern takes as many decisions as it declares, whether
it matches or not. -/
theorem asksFor_decide (hw : scene.WellFormed) {key : Key} (htakes : scene.Takes p key) :
    Walk.AsksFor (Settles fun d => scene.Decides p key d.links d.path)
      (scene.patterns.query p).decisions (scene.decide p key) := by
  rw [decide_eq]
  exact (spends_map (spends_decideLinks hw htakes) fun r hr => hr).padTo

end Scene

/-! ## Slots -/

section Slots

variable {α : Type} {isStar : α → Bool}

/-- Each child of a member has its link as many slots on as the members before it and the children
beside it take. -/
theorem mem_membersLinks_of_getElem? {ms : List (Member α)} {k : Nat} {m : Member α}
    (hm : ms[k]? = some m) {j : Nat} {q : α} (hq : m.children[j]? = some q) (slot : Nat) :
    ⟨slot + total ((ms.take k).map Member.width) + j, q,
      if isStar q then .multiplicity else .normal⟩ ∈ membersLinks isStar slot ms := by
  induction ms generalizing k slot with
  | nil => simp at hm
  | cons n ms ih =>
    rw [membersLinks]
    cases k with
    | zero =>
      obtain rfl : n = m := by simpa using hm
      refine List.mem_append_left _ (List.mem_map.mpr ⟨(q, j), ?_, ?_⟩)
      · simpa [List.mem_zipIdx_iff_getElem?] using hq
      · simp
    | succ k =>
      refine List.mem_append_right _ ?_
      have hmem := ih (by simpa using hm) (slot + n.width)
      rw [List.take_succ_cons, List.map_cons, total_cons, ← Nat.add_assoc]
      exact hmem

/-- The member `m'` is `m`, or `m` left open. -/
def Member.Opens (m m' : Member α) : Prop := m' = m ∨ m.category = .single ∧ m' = .single none

/-- Members that are left open lose their links, and the others keep their slots. -/
theorem membersLinks_sublist_of_opens {ms ms' : List (Member α)}
    (h : List.Forall₂ Member.Opens ms ms') (slot : Nat) :
    (membersLinks isStar slot ms').Sublist (membersLinks isStar slot ms) := by
  induction h generalizing slot with
  | nil => exact .slnil
  | @cons m m' ms ms' hm _ ih =>
    rw [membersLinks, membersLinks]
    rcases hm with rfl | ⟨hsingle, rfl⟩
    · exact (List.Sublist.refl _).append (ih _)
    · cases m with
      | single child => exact (List.nil_sublist _).append (ih _)
      | sequence items | collection items => cases hsingle

end Slots

/-! ## Agreement -/

namespace Scene

variable {s : Schema} {scene : Scene s} {p : PatternId} {key : Key}

/-- The decided links of a pattern are those that its query declares: each carries the slot, the
target and the kind of a declared link; every link that is not abnormal is decided once, but of a
match-any only one is; and the links of a standard pattern are where its members are, of which a
single one takes one slot even if it is open. -/
structure Answers (scene : Scene s) (p : PatternId) (links : List (DecidedLink (Fin p))) :
    Prop where
  declared : ∀ l ∈ links, l.declared ∈ (scene.patterns.query p).links
  once : (scene.patterns.get p).agent.isDisjunction = false → ∀ l ∈ (scene.patterns.query p).links,
    l.kind ≠ .abnormal → (links.map DecidedLink.declared).count l = 1
  disjunct : (scene.patterns.get p).agent.isDisjunction = true →
    ∃ l ∈ (scene.patterns.query p).links, links.map DecidedLink.declared = [l]
  slot : ∀ value members, (scene.patterns.pattern p).agent = .standard value members →
    ∀ (k : Nat) (m : Member (Fin p)), members[k]? = some m → ∀ (j : Nat) (q : Fin p),
      m.children[j]? = some q →
      ∃ l ∈ links, l.target = q ∧ l.slot = total ((members.take k).map Member.width) + j

theorem Decides.answers (hw : scene.WellFormed) {links : List (DecidedLink (Fin p))}
    {path : Option (List Site)} (h : scene.Decides p key links path) : scene.Answers p links := by
  have hdis := scene.patterns.isDisjunction_pattern p
  constructor
  case declared => exact fun l hl => h.declared_mem hw hl
  case once =>
    intro hd l hl hk
    have hperm := h.declared_perm hw (hdis.trans hd)
    have hcount := hperm.count_eq l
    have hnodup : (scene.patterns.query p).links.Nodup := List.Nodup.of_map _ (nodup_slot_query _)
    have hfilter : (links.filter fun l => l.kind ≠ .abnormal).map DecidedLink.declared =
        (links.map DecidedLink.declared).filter fun l => l.kind ≠ .abnormal := by
      rw [List.filter_map]
      rfl
    rw [hfilter, List.count_filter (by simpa using hk),
      List.count_filter (by simpa using hk)] at hcount
    rw [hcount]
    exact List.count_eq_one_of_mem hnodup hl
  case disjunct =>
    intro hd
    obtain ⟨l, rfl, -, hl⟩ := h.eq_singleton (hdis.trans hd)
    exact ⟨l.declared, hl, rfl⟩
  case slot =>
    intro value members hagent k m hm j q hq
    have hlink : ⟨0 + total ((members.take k).map Member.width) + j, q,
        if scene.patterns.isStar q.val then .multiplicity else .normal⟩ ∈
        (scene.patterns.query p).links := by
      rw [PatternSet.query, hagent]
      exact mem_membersLinks_of_getElem? hm hq 0
    rw [Nat.zero_add] at hlink
    obtain ⟨l, hl, heq⟩ := h.exists_declared hw (by rw [hagent]; rfl) hlink
      (by dsimp only; split <;> simp)
    exact ⟨l, hl, congrArg Link.target heq, congrArg Link.slot heq⟩

/-- A pattern that is held against a key of the right shape comes to a result or a mismatch, unless
the conjecture has other choices on record for one of its decisions.  Either way it has taken as
many decisions as its query declares, and if it matches, its links are those of the query.  In the
query, members that are left open lose their links, and the others keep their slots. -/
theorem answers_of_decide (hw : scene.WellFormed) (htakes : scene.Takes p key) (c : Conjecture) :
    ((∃ d c', Walk.run (scene.decide p key) c = .ok (.ok d) c' ∧
        c.Advances (scene.patterns.query p).decisions c' ∧ scene.Answers p d.links) ∨
      (∃ m c', Walk.run (scene.decide p key) c = .ok (.error (.mismatch m)) c' ∧
        c.Advances (scene.patterns.query p).decisions c') ∨
      ∃ i old new c', Walk.run (scene.decide p key) c = .error (.decisionReshaped i old new) c') ∧
    ∀ value members members', (scene.patterns.pattern p).agent = .standard value members →
      List.Forall₂ Member.Opens members members' →
        ((Agent.standard value members').query fun q => scene.patterns.isStar q.val).links.Sublist
          (scene.patterns.query p).links := by
  refine ⟨?_, ?_⟩
  · rcases (asksFor_decide hw htakes).run c with ⟨r, c', hrun, hadvances, hr⟩ | hreshaped
    · rcases r with (m | e) | d
      · exact .inr (.inl ⟨m, c', hrun, hadvances⟩)
      · exact hr.elim
      · exact .inl ⟨d, c', hrun, hadvances, Decides.answers hw hr⟩
    · exact .inr (.inr hreshaped)
  · intro value members members' hagent hopens
    rw [PatternSet.query, hagent]
    exact membersLinks_sublist_of_opens hopens 0

/-- Rows with a head, cells in a sequence and tags in a collection. -/
def rows : Schema :=
  (Schema.base.push
    ⟨"Row", some 0, [⟨"head", .single⟩, ⟨"cells", .sequence⟩, ⟨"tags", .collection⟩], false⟩
    Schema.nodeKind_lt_base).enter "Row" 1

theorem define_rows : Schema.define "Row" 0
    [⟨"head", .single⟩, ⟨"cells", .sequence⟩, ⟨"tags", .collection⟩] false .base = .ok 1 rows :=
  Schema.define_of_extendLayout (by decide) Schema.nodeKind_lt_base rfl

/-- A pattern for rows with any head, a cell among others and a tag, and beside it a row of two
cells and one without cells. -/
def openRow : Scene rows where
  forest := (((Forest.empty.push ⟨0, none, []⟩).push ⟨0, none, []⟩).push
    ⟨1, none, [.single (some 0), .sequence [0, 1], .collection [0, 1]]⟩).push
    ⟨1, none, [.single (some 0), .sequence [], .collection [0, 1]]⟩
  patterns := ((PatternSet.empty.push ⟨0, .star none⟩).push ⟨0, .standard none []⟩).push
    ⟨1, .standard none [.single none, .sequence [0, 1, 0], .collection [1, 0]]⟩
  watermark := 0

theorem wellFormed_openRow : openRow.WellFormed where
  schema := Schema.wellFormed_base.define define_rows
  forest := (((Forest.wellShaped_empty.push (by rfl)).push (by rfl)).push (by rfl)).push (by rfl)
  patterns := ((PatternSet.wellFormed_empty.insert
    (rfl : PatternSet.insert _ 0 (.star none) = .ok _)).insert
    (rfl : PatternSet.insert _ 0 (.standard none []) = .ok _)).insert
    (rfl : PatternSet.insert _ 1
      (.standard none [.single none, .sequence [0, 1, 0], .collection [1, 0]]) = .ok _)

/-- The first star of the pattern takes one cell. -/
def oneCell : Conjecture := ⟨[⟨⟨0, 2⟩, 1⟩], 0⟩

/-- One of two decisions is on record, and the slots begin after the open head.  Where there are no
cells, the pattern fails before its first decision and takes two all the same. -/
theorem answers_openRow :
    openRow.WellFormed ∧ openRow.Takes 2 (.node 2) ∧ openRow.Takes 2 (.node 3) ∧
    (∃ d c', Walk.run (openRow.decide 2 (.node 2)) oneCell = .ok (.ok d) c' ∧
      c'.decisions.length = 2 ∧ d.links.map (·.slot) = [1, 2, 3, 4, 5] ∧
      openRow.Answers 2 d.links) ∧
    ∃ m c', Walk.run (openRow.decide 2 (.node 3)) .empty = .ok (.error (.mismatch m)) c' ∧
      c'.decisions.length = 2 := by
  have hmatch : ((Walk.run (openRow.decide 2 (.node 2))).run' oneCell).map (Except.map fun d =>
      d.links.map (·.slot)) = some (.ok [1, 2, 3, 4, 5]) := by decide +kernel
  have hmismatch : (Walk.run (openRow.decide 2 (.node 3))).run' .empty =
      some (.error (.mismatch .size)) := by
    decide +kernel
  have hdecisions : (openRow.patterns.query 2).decisions = 2 := by decide +kernel
  have hstar : openRow.patterns.isStar 2 = false := by decide +kernel
  have htwo : openRow.Takes 2 (.node 2) := hstar
  have hthree : openRow.Takes 2 (.node 3) := hstar
  refine ⟨wellFormed_openRow, htwo, hthree, ?_, ?_⟩
  · obtain ⟨⟨d, c', hrun, hadv, hans⟩ | ⟨m, c', hrun, -⟩ | ⟨_, _, _, c', hrun⟩, -⟩ :=
      answers_of_decide wellFormed_openRow htwo oneCell
    all_goals
      unfold EStateM.run' EStateM.run at hmatch
      rw [hrun] at hmatch
    · have hslots : d.links.map (·.slot) = [1, 2, 3, 4, 5] := Except.ok.inj (Option.some.inj hmatch)
      exact ⟨d, c', hrun, by rw [hadv.length_eq (by decide), hdecisions]; rfl, hslots, hans⟩
    · cases hmatch
    · cases hmatch
  · obtain ⟨⟨d, c', hrun, -⟩ | ⟨m, c', hrun, hadv⟩ | ⟨_, _, _, c', hrun⟩, -⟩ :=
      answers_of_decide wellFormed_openRow hthree .empty
    all_goals
      unfold EStateM.run' EStateM.run at hmismatch
      rw [hrun] at hmismatch
    · cases hmismatch
    · exact ⟨m, c', hrun, by rw [hadv.length_eq (by decide), hdecisions]; rfl⟩
    · cases hmismatch

end Scene

end Espalier
