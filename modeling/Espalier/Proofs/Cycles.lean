import Espalier.Proofs.Sharing

/-!
# Definitions that contain themselves

The node of a pattern comes after those of the patterns inside it, and a name is one node.  So where
the patterns of a valid rule can be compiled, the definition of a name never leads back to the name;
and where they cannot be because of a cycle, it does.
-/

namespace Espalier

variable {s : Schema}

theorem PatternSet.IsRoot.lt {ps : PatternSet s} {search : PatternId} {replace : Option PatternId}
    {mode : Mode} {root : PatternId} (h : ps.IsRoot search replace mode root) :
    search < root ∧ replace.getD search < root := by
  cases mode with
  | compare =>
    have hlt := ps.child_lt root _ h
    exact ⟨hlt _ (by simp [Agent.children]), hlt _ (by simp [Agent.children])⟩
  | search =>
    obtain ⟨overlay, hroot, hoverlay⟩ := h
    have hlt : overlay < root := ps.child_lt root _ hroot overlay (by simp [Agent.children])
    have hbelow := ps.child_lt overlay _ hoverlay
    exact ⟨Nat.lt_trans (hbelow _ (by simp [Agent.children])) hlt,
      Nat.lt_trans (hbelow _ (by simp [Agent.children])) hlt⟩

theorem mem_mapIdx_of_getElem? {α : Type} {xs : List α} {g : Nat → PatternId} {i : Nat} {a : α}
    (h : xs[i]? = some a) : g i ∈ xs.mapIdx fun i _ => g i := by
  obtain ⟨hi, -⟩ := List.getElem?_eq_some_iff.mp h
  exact List.mem_mapIdx.mpr ⟨i, hi, rfl⟩

/-- The nodes of the patterns inside come before the node. -/
theorem AgentSpec.Laid.lt {ps : PatternSet s} {kind : KindId} {ids : Step → PatternId}
    {spec : AgentSpec} {agent : Agent PatternId} {id : PatternId} (h : spec.Laid ps kind ids agent)
    (hnode : ps.nodes[id]? = some ⟨kind, agent⟩) {step : Step} {q : PatternSpec}
    (hq : spec.child step = some q) : ids step < id := by
  have hlt := ps.child_lt id _ hnode
  cases spec with
  | standard value given =>
    cases step with
    | member name i =>
      obtain ⟨d, hd, rfl, hholding⟩ := exists_decl_of_itemsFor h.2 hq
      obtain ⟨rfl, -⟩ := h
      refine hlt _ (List.mem_flatMap_of_mem (List.mem_map_of_mem hd) ?_)
      rw [hholding _ List.length_mapIdx]
      exact mem_mapIdx_of_getElem? hq
    | _ => cases hq
  | slave through search replace mode =>
    obtain ⟨root, rfl, hroot⟩ := h
    have hroot_lt : root < id := hlt root (by simp [Agent.children])
    cases step <;> cases hq
    · exact hlt _ (by simp [Agent.children])
    · exact Nat.lt_trans hroot.lt.1 hroot_lt
    · exact Nat.lt_trans hroot.lt.2 hroot_lt
  | ref => exact h.elim
  | matchAll ps | matchAny ps =>
    cases step with
    | item i =>
      subst h
      exact hlt _ (mem_mapIdx_of_getElem? hq)
    | _ => cases hq
  | _ =>
    subst h
    cases step <;> cases hq <;> exact hlt _ (by simp [Agent.children])

namespace RuleSpec

variable {r : RuleSpec} {ps : PatternSet s} {search : PatternId} {replace : Option PatternId}
  {ids : Place → PatternId} {place : Place} {p q : PatternSpec} {name used : String}

theorem Lays.child_lt (h : r.Lays ps search replace ids) (hat : r.patternAt place = some p)
    {step : Step} (hchild : p.agent.child step = some q) : ids (place ++ [step]) < ids place := by
  obtain ⟨kind, agent, hnode, -, hlaid⟩ := h.node place p hat (PatternSpec.isRef_of_child hchild)
  exact hlaid.lt hnode hchild

theorem Lays.le_of_part? (h : r.Lays ps search replace ids) {path : Place}
    (hat : r.patternAt place = some p) (hq : p.part? path = some q) :
    ids (place ++ path) ≤ ids place := by
  induction path generalizing place p with
  | nil => rw [List.append_nil]
  | cons step path ih =>
    rw [PatternSpec.part?_cons] at hq
    obtain ⟨p', hp', hq⟩ := Option.bind_eq_some_iff.mp hq
    have hle := ih ((patternAt_child hat step).trans hp') hq
    rw [List.append_assoc, List.singleton_append] at hle
    exact Nat.le_trans hle (Nat.le_of_lt (h.child_lt hat hp'))

/-- What is used in the definition of a name comes before it. -/
theorem lt_of_uses {t : Trail s} (hsorted : r.Sorted) (h : r.Lays ps search replace ids)
    (hids : ∀ place p, r.patternAt place = some p → t.Stands place p (ids place))
    (huses : r.Uses name used) :
    ∃ id id', t.compiled.names.lookup name = some id ∧ t.compiled.names.lookup used = some id' ∧
      id' < id := by
  obtain ⟨p, hdef, q, hq, hused⟩ := huses
  obtain ⟨hmem, href, hname⟩ := mem_definitions.mp (mem_of_lookup hdef)
  obtain ⟨place, hat⟩ := exists_patternAt_of_mem hsorted hmem
  obtain ⟨step, p', hp', hq⟩ := AgentSpec.exists_child_of_mem_parts (hsorted p hmem) hq
  have hat' : r.patternAt (place ++ [step]) = some p' := (patternAt_child hat step).trans hp'
  have hsorted' : ∀ q ∈ p'.parts, q.agent.Sorted := fun q hq =>
    hsorted q ((sublist_patterns_of_patternAt hat').subset hq)
  obtain ⟨path, hpath⟩ := PatternSpec.exists_part?_of_mem hsorted' hq
  have hatq : r.patternAt (place ++ [step] ++ path) = some q := by
    rw [patternAt_append (ne_nil_of_patternAt hat'), hat', Option.bind_some, hpath]
  have hp := hids place p hat
  have hq := hids _ q hatq
  rw [Trail.Stands, hname] at hp
  rw [Trail.Stands, hused] at hq
  exact ⟨_, _, hp, hq, Nat.lt_of_le_of_lt (h.le_of_part? hat' hpath) (h.child_lt hat hp')⟩

theorem not_transGen_uses_of_drafted {known : List String} {roots : PatternId × Option PatternId}
    {c : Compiled s} (hdistinct : s.Distinct) (hsorted : r.Sorted)
    (hvalid : r.checkPatterns known = []) (h : r.drafted s = .ok roots c) (name : String) :
    ¬ Relation.TransGen r.Uses name name := by
  obtain ⟨t, rfl, hsound, hsearch, hreplace, hstands⟩ := exists_trail_of_drafted hdistinct hsorted h
  obtain ⟨ids, hlays, hids⟩ :=
    hsound.exists_lays (definesOnce_of_checkPatterns hvalid) hsearch hreplace hstands
  -- Along the uses of names their nodes come ever earlier.
  have hlt : ∀ used, Relation.TransGen r.Uses name used → ∃ id id',
      t.compiled.names.lookup name = some id ∧
      t.compiled.names.lookup used = some id' ∧ id' < id := by
    intro used hgen
    induction hgen with
    | single huses => exact lt_of_uses hsorted hlays hids huses
    | tail _ huses ih =>
      obtain ⟨id, id₁, hid, hid₁, hlt⟩ := ih
      obtain ⟨id₁', id₂, hid₁', hid₂, hlt'⟩ := lt_of_uses hsorted hlays hids huses
      obtain rfl := Option.some.inj (hid₁.symm.trans hid₁')
      exact ⟨id, id₂, hid, hid₂, Nat.lt_trans hlt' hlt⟩
  intro hgen
  obtain ⟨id, id', hid, hid', hlt⟩ := hlt name hgen
  obtain rfl := Option.some.inj (hid.symm.trans hid')
  exact Nat.lt_irrefl _ hlt

/-- The patterns of a rule are compiled by a recursion that needs no bound.  If it ends with a
cycle, the definition of the name leads back to the name; and if the patterns of a valid rule can be
compiled, no definition leads back to its name. -/
theorem cycles_of_drafted (r : RuleSpec) (s : Schema) :
    (∀ left, r.definitions.length ≤ left →
      (Compile.named r.id r.definitions left [] : String → Compile s PatternId) =
        Compile.resolved r.id r.definitions []) ∧
    (∀ info, r.compile info s = r.finish info (r.drafted s)) ∧
    (∀ info rule name, r.compile info s = .error (.cycle rule name) →
      rule = r.id ∧ Relation.TransGen r.Uses name name) ∧
    ∀ known roots c, s.Built → r.Sorted → r.checkPatterns known = [] → r.drafted s = .ok roots c →
      ∀ name, ¬ Relation.TransGen r.Uses name name := by
  refine ⟨fun left hleft => ?_, fun info => r.compile_eq_finish info,
    fun _ _ _ => transGen_uses_of_compile, ?_⟩
  · exact Compile.named_eq_resolved r.id (Nat.le_trans (Compile.unbuilt_le_length _ _) hleft)
  · intro known roots c hs hsorted hvalid hdrafted name
    exact not_transGen_uses_of_drafted hs.distinct hsorted hvalid hdrafted name

/-- A rule whose search pattern refers to what the replacement defines. -/
def forward (agent : AgentSpec) : RuleSpec where
  id := "forward"
  description := none
  mode := .compare
  search := .mk (some "outer") none (.notMatch (.mk (some "inner") none .ref))
  replace := some (.mk (some "inner") none agent)
  maxRepetitions := none

/-- If the replacement refers back there is a cycle, and if it is a leaf there is none. -/
theorem cycles_of_drafted_forward :
    Relation.TransGen (forward (.notMatch (.mk (some "outer") none .ref))).Uses "outer" "outer" ∧
      ∀ name, ¬ Relation.TransGen (forward (.standard none [])).Uses name name := by
  let info : Metadata := { name := "", description := none, maxRepetitions := 1, strict := true }
  constructor
  · have herror : ((forward (.notMatch (.mk (some "outer") none .ref))).compile info .base).map
        (fun _ => ()) = .error (.cycle "forward" "outer") := by decide +kernel
    cases hcompile : (forward (.notMatch (.mk (some "outer") none .ref))).compile info .base with
    | error e =>
      rw [hcompile] at herror
      cases herror
      exact ((cycles_of_drafted _ .base).2.2.1 info _ _ hcompile).2
    | ok rule =>
      rw [hcompile] at herror
      cases herror
  · have hok : ((forward (.standard none [])).compile info .base).isOk = true := by decide +kernel
    cases hcompile : (forward (.standard none [])).compile info .base with
    | error e =>
      rw [hcompile] at hok
      cases hok
    | ok rule =>
      obtain ⟨c, hdrafted, -⟩ := exists_drafted_of_compile hcompile
      exact (cycles_of_drafted _ .base).2.2.2 [] _ c .base (by decide +kernel)
        (by decide +kernel) hdrafted

end RuleSpec

end Espalier
