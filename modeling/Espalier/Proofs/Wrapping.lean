import Espalier.Proofs.Congruence
import Espalier.Proofs.Reproduction
import Espalier.Proofs.Sight

/-!
# A pattern inside of a disjunction of its own

One pattern of a set is put inside of a disjunction that has no other disjunct, and some of the
references to it are made references to the disjunction.  The links of the two sets correspond, and
so does what links lead to: the disjunction only adds one step on the way.
-/

namespace Espalier

variable {s : Schema}

namespace PatternSet

/-- Where the pattern `p` is once another one has been put in at `m`. -/
def skip (m p : PatternId) : PatternId := if p < m then p else p + 1

theorem skip_of_lt {m p : PatternId} (h : p < m) : skip m p = p := if_pos h

theorem skip_of_le {m p : PatternId} (h : m ≤ p) : skip m p = p + 1 := if_neg (Nat.not_lt.mpr h)

theorem skip_le (m p : PatternId) : skip m p ≤ p + 1 := by
  rcases Nat.lt_or_ge p m with h | h
  · exact (skip_of_lt h).trans_le (Nat.le_succ p)
  · exact (skip_of_le h).le

theorem skip_injective (m : PatternId) : Function.Injective (skip m) := by
  have hnat (m p p' : Nat) (h : (if p < m then p else p + 1) = if p' < m then p' else p' + 1) :
      p = p' := by
    split at h <;> split at h <;> omega
  exact fun p p' => hnat m p p'

theorem skip_ne (m p : PatternId) : skip m p ≠ m := by
  rcases Nat.lt_or_ge p m with h | h
  · rw [skip_of_lt h]
    exact h.ne
  · rw [skip_of_le h]
    exact (Nat.lt_succ_of_le h).ne'

/-- A reference to `a` has become one to `a'`, which is the same pattern or, in the place of `q`,
the disjunction at `m`. -/
def Redirects (m q a a' : PatternId) : Prop := a' = skip m a ∨ a = q ∧ a' = m

theorem Redirects.unique {m q a b a' : PatternId} (h : Redirects m q a a')
    (h' : Redirects m q b a') : a = b := by
  rcases h with rfl | ⟨rfl, rfl⟩
  · rcases h' with h | ⟨-, h⟩
    · exact skip_injective m h
    · exact (skip_ne m a h).elim
  · rcases h' with h | ⟨rfl, -⟩
    · exact (skip_ne _ b h.symm).elim
    · rfl

/-- The patterns before `b` of one set are those of another, but that a disjunction of `q` alone has
been put in at `m` and some of the references to `q` lead to it. -/
structure Wraps (ps ps' : PatternSet s) (q m : PatternId) (b : Nat) : Prop where
  wrapper : ps'.get m = ⟨Schema.nodeKind, .matchAny [skip m q]⟩
  not_isStar : ps.isStar q = false
  kind_eq : ∀ p < b, (ps'.get (skip m p)).kind = (ps.get p).kind
  parallel : ∀ p < b, (ps.get p).agent.Parallel (Redirects m q) (ps'.get (skip m p)).agent

namespace Wraps

variable {ps ps' : PatternSet s} {q m p root root' a a' : PatternId} {b slot : Nat}

theorem exists_agent (h : ps.Wraps ps' q m b) :
    ∃ t : Fin m, t.val = skip m q ∧ (ps'.pattern m).agent = .matchAny [t] := by
  have hagent := ps'.map_val_pattern m
  rw [h.wrapper] at hagent
  cases ha : (ps'.pattern m).agent with
  | matchAny qs =>
    rw [ha] at hagent
    obtain ⟨t, rfl, ht⟩ : ∃ t : Fin m, qs = [t] ∧ t.val = skip m q := by
      simpa [Agent.map, List.map_eq_singleton_iff] using hagent
    exact ⟨t, ht, rfl⟩
  | _ => simp [ha, Agent.map] at hagent

theorem links_wrapper (h : ps.Wraps ps' q m b) :
    ∃ t : Fin m, t.val = skip m q ∧ (ps'.query m).links = [⟨0, t, .normal⟩] := by
  obtain ⟨t, ht, hagent⟩ := h.exists_agent
  exact ⟨t, ht, by rw [query, hagent]; rfl⟩

theorem evaluator_wrapper (h : ps.Wraps ps' q m b) : (ps'.query m).evaluator = none := by
  obtain ⟨t, -, hagent⟩ := h.exists_agent
  rw [query, hagent]
  rfl

theorem leads_wrapper (h : ps.Wraps ps' q m b) : ps'.Leads m 0 (skip m q) := by
  obtain ⟨t, ht, hlinks⟩ := h.links_wrapper
  exact ⟨⟨0, t, .normal⟩, by rw [hlinks]; exact List.mem_cons_self, by simp, rfl, ht⟩

theorem eq_of_refers_wrapper (h : ps.Wraps ps' q m b) (hr : ps'.Refers m slot a') :
    a' = skip m q := by
  obtain ⟨t, ht, hlinks⟩ := h.links_wrapper
  obtain ⟨l, hl, -, rfl⟩ := hr
  rw [hlinks, List.mem_singleton] at hl
  rw [hl, ht]

theorem isStar_eq (h : ps.Wraps ps' q m b) (ha : a < b) (hr : Redirects m q a a') :
    ps'.isStar a' = ps.isStar a := by
  rcases hr with rfl | ⟨rfl, rfl⟩
  · exact (h.parallel a ha).isStar_eq.symm
  · rw [h.not_isStar, isStar, h.wrapper]
    rfl

theorem kind_pattern (h : ps.Wraps ps' q m b) (hp : p < b) :
    (ps'.pattern (skip m p)).kind = (ps.pattern p).kind :=
  h.kind_eq p hp

theorem parallel_pattern (h : ps.Wraps ps' q m b) (hp : p < b) :
    (ps.pattern p).agent.Parallel (fun a a' => Redirects m q a.val a'.val)
      (ps'.pattern (skip m p)).agent := by
  have hparallel : ((ps.pattern p).agent.map Fin.val).Parallel (Redirects m q)
      ((ps'.pattern (skip m p)).agent.map Fin.val) := by
    rw [map_val_pattern, map_val_pattern]
    exact h.parallel p hp
  exact .of_map hparallel

/-- The links of a pattern keep their slots and kinds. -/
theorem query (h : ps.Wraps ps' q m b) (hp : p < b) :
    List.Forall₂ (Link.Parallel fun a a' => Redirects m q a.val a'.val) (ps.query p).links
        (ps'.query (skip m p)).links ∧
      (ps.query p).evaluator = (ps'.query (skip m p)).evaluator :=
  (h.parallel_pattern hp).query fun a _ haa' => h.isStar_eq (Nat.lt_trans a.isLt hp) haa'

theorem exists_leads (h : ps.Wraps ps' q m b) (hp : p < b) (hl : ps.Leads p slot a) :
    ∃ a', Redirects m q a a' ∧ ps'.Leads (skip m p) slot a' := by
  obtain ⟨l, hmem, hk, rfl, rfl⟩ := hl
  obtain ⟨l', hmem', hll'⟩ := exists_mem_of_forall₂ (h.query hp).1 hmem
  exact ⟨_, hll'.target, l', hmem', hll'.kind_eq ▸ hk, hll'.slot_eq.symm, rfl⟩

theorem exists_leads_of_leads (h : ps.Wraps ps' q m b) (hp : p < b)
    (hl : ps'.Leads (skip m p) slot a') : ∃ a, Redirects m q a a' ∧ ps.Leads p slot a := by
  obtain ⟨l', hmem', hk, rfl, rfl⟩ := hl
  obtain ⟨l, hmem, hll'⟩ := exists_mem_of_forall₂ (h.query hp).1.flip hmem'
  exact ⟨_, hll'.target, l, hmem, hll'.kind_eq ▸ hk, hll'.slot_eq, rfl⟩

theorem exists_refers (h : ps.Wraps ps' q m b) (hp : p < b) (hr : ps.Refers p slot a) :
    ∃ a', Redirects m q a a' ∧ ps'.Refers (skip m p) slot a' := by
  obtain ⟨l, hmem, rfl, rfl⟩ := hr
  obtain ⟨l', hmem', hll'⟩ := exists_mem_of_forall₂ (h.query hp).1 hmem
  exact ⟨_, hll'.target, l', hmem', hll'.slot_eq.symm, rfl⟩

theorem exists_refers_of_refers (h : ps.Wraps ps' q m b) (hp : p < b)
    (hr : ps'.Refers (skip m p) slot a') : ∃ a, Redirects m q a a' ∧ ps.Refers p slot a := by
  obtain ⟨l', hmem', rfl, rfl⟩ := hr
  obtain ⟨l, hmem, hll'⟩ := exists_mem_of_forall₂ (h.query hp).1.flip hmem'
  exact ⟨_, hll'.target, l, hmem, hll'.slot_eq, rfl⟩

/-- Where links lead to `a'` they lead on to the pattern itself. -/
theorem linked_skip (h : ps.Wraps ps' q m b) (hr : Redirects m q a a') (hl : ps'.Linked root' a') :
    ps'.Linked root' (skip m a) := by
  rcases hr with rfl | ⟨rfl, rfl⟩
  · exact hl
  · exact hl.step h.leads_wrapper.refers

theorem linked (h : ps.Wraps ps' q m b) (hroot : root < b) (hr : Redirects m q root root')
    (hl : ps.Linked root p) : ps'.Linked root' (skip m p) := by
  induction hl with
  | refl => exact h.linked_skip hr .refl
  | step hp hrefers ih =>
    obtain ⟨a', haa', hrefers'⟩ := h.exists_refers (Nat.lt_of_le_of_lt hp.le hroot) hrefers
    exact h.linked_skip haa' (ih.step hrefers')

theorem exists_linked (h : ps.Wraps ps' q m b) (hroot : root < b) (hr : Redirects m q root root')
    {p' : PatternId} (hl : ps'.Linked root' p') : ∃ p, Redirects m q p p' ∧ ps.Linked root p := by
  induction hl with
  | refl => exact ⟨root, hr, .refl⟩
  | step _ hrefers ih =>
    obtain ⟨p, hpp', hp⟩ := ih
    rcases hpp' with rfl | ⟨rfl, rfl⟩
    · obtain ⟨a, haa', hrefers'⟩ :=
        h.exists_refers_of_refers (Nat.lt_of_le_of_lt hp.le hroot) hrefers
      exact ⟨a, haa', hp.step hrefers'⟩
    · exact ⟨p, .inl (h.eq_of_refers_wrapper hrefers), hp⟩

/-! ## What a rule adds -/

theorem lt_size (h : ps.Wraps ps' q m b) : m < ps'.size := by
  by_contra hm
  have hget := h.wrapper
  rw [get, Array.getElem?_eq_none (Nat.not_lt.mp hm)] at hget
  cases congrArg Pattern.agent hget

theorem le_size (h : ps.Wraps ps' q m b) (hsize : ps'.size = ps.size + 1) : m ≤ ps.size :=
  Nat.le_of_lt_succ (h.lt_size.trans_eq hsize)

theorem lt_wrapper (h : ps.Wraps ps' q m b) : q < m := by
  obtain ⟨t, ht, -⟩ := h.exists_agent
  by_contra hq
  have hlt : q + 1 < m := skip_of_le (Nat.not_lt.mp hq) ▸ ht ▸ t.isLt
  exact hq (Nat.lt_of_succ_lt hlt)

/-- Patterns that are added to both sets correspond if they refer to patterns that do. -/
theorem push (h : ps.Wraps ps' q m ps.size) (hsize : ps'.size = ps.size + 1)
    (n n' : Pattern PatternId) (hlow : ∀ c ∈ n.agent.children, c < ps.size)
    (hlow' : ∀ c ∈ n'.agent.children, c < ps'.size)
    (hkind : n'.kind = n.kind) (hagent : n.agent.Parallel (Redirects m q) n'.agent) :
    (ps.push n).Wraps (ps'.push n') q m (ps.push n).size ∧
      (ps'.push n').size = (ps.push n).size + 1 := by
  have hm := h.le_size hsize
  have hget {p} (hp : p < (ps.push n).size) :
      p < ps.size ∧ (ps.push n).get p = ps.get p ∧
          (ps'.push n').get (skip m p) = ps'.get (skip m p) ∨
        p = ps.size ∧ (ps.push n).get p = n ∧ (ps'.push n').get (skip m p) = n' := by
    rw [size_push hlow] at hp
    rcases Nat.lt_succ_iff_lt_or_eq.mp hp with hp | rfl
    · have hskip : skip m p < ps'.size :=
        hsize ▸ Nat.lt_of_le_of_lt (skip_le m p) (Nat.succ_lt_succ hp)
      exact .inl ⟨hp, get_push_of_lt hp, get_push_of_lt hskip⟩
    · rw [skip_of_le hm, ← hsize]
      exact .inr ⟨rfl, get_push_size hlow, get_push_size hlow'⟩
  refine ⟨⟨?_, ?_, fun p hp => ?_, fun p hp => ?_⟩, by rw [size_push hlow, size_push hlow', hsize]⟩
  · rw [get_push_of_lt h.lt_size, h.wrapper]
  · rw [isStar, get_push_of_lt (h.lt_wrapper.trans_le hm)]
    exact h.not_isStar
  · rcases hget hp with ⟨hp, hn, hn'⟩ | ⟨-, hn, hn'⟩
    · rw [hn, hn', h.kind_eq p hp]
    · rw [hn, hn', hkind]
  · rcases hget hp with ⟨hp, hn, hn'⟩ | ⟨-, hn, hn'⟩
    · rw [hn, hn']
      exact h.parallel p hp
    · rw [hn, hn']
      exact hagent

/-- What a rule adds to its patterns corresponds, too. -/
theorem wrap (h : ps.Wraps ps' q m ps.size) (hsize : ps'.size = ps.size + 1) (hps : ps.WellFormed)
    (hps' : ps'.WellFormed) {search search' : PatternId} {replace replace' : Option PatternId}
    {mode : Mode} (hsearch : Redirects m q search search')
    (hreplace : Option.Rel (Redirects m q) replace replace') {P P' : PatternSet s}
    (hwrap : (Draft.wrap search replace mode).run ps = .ok root P)
    (hwrap' : (Draft.wrap search' replace' mode).run ps' = .ok root' P') :
    P.Wraps P' q m P.size ∧ Redirects m q root root' ∧ root < P.size := by
  have habove : Redirects m q (replace.getD search) (replace'.getD search') := by
    cases hreplace with
    | none => exact hsearch
    | some h => exact h
  have hskip : skip m ps.size = ps'.size := by
    rw [skip_of_le (h.le_size hsize), hsize]
  obtain ⟨-, hlt, hlt₁, hroot⟩ := hps.wrap_eq hwrap
  obtain ⟨-, hlt', hlt₁', hroot'⟩ := hps'.wrap_eq hwrap'
  have hlow : ∀ c ∈ (Agent.overlay search (replace.getD search)).children, c < ps.size := by
    simp [Agent.children, hlt, hlt₁]
  have hlow' : ∀ c ∈ (Agent.overlay search' (replace'.getD search')).children, c < ps'.size := by
    simp [Agent.children, hlt', hlt₁']
  have hoverlay := h.push hsize ⟨Schema.nodeKind, _⟩ ⟨Schema.nodeKind, _⟩ hlow hlow' rfl
    (.overlay hsearch habove)
  have hsize₁ := size_push (n := ⟨Schema.nodeKind, _⟩) hlow
  have hsize₁' := size_push (n := ⟨Schema.nodeKind, _⟩) hlow'
  cases mode with
  | compare =>
    obtain ⟨rfl, rfl⟩ := hroot
    obtain ⟨rfl, rfl⟩ := hroot'
    exact ⟨hoverlay.1, .inl hskip.symm, (Nat.lt_succ_self ps.size).trans_eq hsize₁.symm⟩
  | search =>
    obtain ⟨rfl, rfl⟩ := hroot
    obtain ⟨rfl, rfl⟩ := hroot'
    have hstuff := hoverlay.1.push hoverlay.2 ⟨Schema.nodeKind, .stuff ps.size none⟩
      ⟨Schema.nodeKind, .stuff ps'.size none⟩ (by simp [Agent.children, hsize₁])
      (by simp [Agent.children, hsize₁']) rfl (.stuff (.inl hskip.symm) .none)
    refine ⟨hstuff.1, .inl ?_, ?_⟩
    · rw [skip_of_le ((h.le_size hsize).trans (Nat.le_succ _)), hsize]
    · rw [size_push (by simp [Agent.children, hsize₁]), hsize₁]
      exact Nat.lt_succ_self _

end Wraps

end PatternSet

end Espalier
