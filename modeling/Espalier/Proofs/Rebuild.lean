import Espalier.Proofs.Building
import Espalier.Proofs.Keying

/-!
# Runs of a rule end without an internal fault

Some faults would mean that a search or its plan is broken: a decision that changes on replay, a
residual link without a coupling, a subject that does not fit its kind, a key of the wrong shape, a
plan that is missing.  No search comes to one of them, and a run keeps its forest in a shape where
the searches of its later rounds, and those of the slaves that it rebuilds, do not either.
-/

namespace Espalier

variable {s : Schema}

/-- Whether the error is an internal fault. -/
def RunError.isInternal : RunError → Bool
  | .fault e => e.isInternal
  | _ => false

/-! ## The patterns that a rebuild comes to -/

/-- What is met on the way down is closed under going further down. -/
theorem reach_closed (next : (p : PatternId) → List (Fin p)) (seen : List PatternId)
    (p : PatternId) :
    seen ⊆ reach next seen p ∧ p ∈ reach next seen p ∧
      ∀ q ∈ reach next seen p, q ∈ seen ∨ ∀ c ∈ next q, c.val ∈ reach next seen p := by
  induction p using Nat.strongRecOn generalizing seen with
  | ind p ih =>
    rw [reach]
    split
    next hp => exact ⟨fun _ => id, hp, fun q hq => .inl hq⟩
    next =>
      -- Of the children gone through so far all is met, and nothing met is without its children.
      have fold (cs : List (Fin p)) (seen : List PatternId) :
          seen ⊆ cs.foldl (fun seen c => reach next seen c.val) seen ∧
          (∀ c ∈ cs, c.val ∈ cs.foldl (fun seen c => reach next seen c.val) seen) ∧
          ∀ q ∈ cs.foldl (fun seen c => reach next seen c.val) seen, q ∈ seen ∨
            ∀ c ∈ next q, c.val ∈ cs.foldl (fun seen c => reach next seen c.val) seen := by
        induction cs generalizing seen with
        | nil => exact ⟨fun _ => id, by simp, fun q hq => .inl hq⟩
        | cons c cs ihc =>
          obtain ⟨hseen, hc, hclosed⟩ := ih c.val c.isLt seen
          obtain ⟨hseen', hcs, hclosed'⟩ := ihc (reach next seen c.val)
          refine ⟨List.Subset.trans hseen hseen', ?_, fun q hq => ?_⟩
          · simp only [List.mem_cons, forall_eq_or_imp]
            exact ⟨hseen' hc, hcs⟩
          · rcases hclosed' q hq with hq | hq
            · exact (hclosed q hq).imp_right fun h c hc => hseen' (h c hc)
            · exact .inr hq
      obtain ⟨hseen, hcs, hclosed⟩ := fold (next p) (seen ++ [p])
      refine ⟨fun q hq => hseen (by simp [hq]), hseen (by simp), fun q hq => ?_⟩
      rcases hclosed q hq with hq | hq
      · rcases List.mem_append.mp hq with hq | hq
        · exact .inl hq
        · obtain rfl := List.mem_singleton.mp hq
          exact .inr hcs
      · exact .inr hq

/-- What holds of the start and is handed on holds of all that is met on the way down. -/
theorem forall_mem_reach {next : (p : PatternId) → List (Fin p)} {P : PatternId → Prop}
    (hnext : ∀ q, P q → ∀ c ∈ next q, P c.val) {seen : List PatternId} {p : PatternId}
    (hseen : ∀ q ∈ seen, P q) (hp : P p) : ∀ q ∈ reach next seen p, P q := by
  induction p using Nat.strongRecOn generalizing seen with
  | ind p ih =>
    rw [reach]
    split
    next => exact hseen
    next =>
      have fold (cs : List (Fin p)) (hcs : ∀ c ∈ cs, P c.val) (seen : List PatternId)
          (hseen : ∀ q ∈ seen, P q) :
          ∀ q ∈ cs.foldl (fun seen c => reach next seen c.val) seen, P q := by
        induction cs generalizing seen with
        | nil => exact hseen
        | cons c cs ihc =>
          rw [List.forall_mem_cons] at hcs
          exact ihc hcs.2 _ (ih c.val c.isLt hseen hcs.1)
      refine fold (next p) (hnext p hp) (seen ++ [p]) fun q hq => ?_
      rcases List.mem_append.mp hq with hq | hq
      · exact hseen q hq
      · exact List.mem_singleton.mp hq ▸ hp

namespace PatternSet

variable {ps : PatternSet s} {root p : PatternId}

theorem self_mem_rebuiltFrom : root ∈ ps.rebuiltFrom root := (reach_closed _ [] root).2.1

theorem mem_rebuiltFrom_of_mem_rebuilt (hp : p ∈ ps.rebuiltFrom root) {c : Fin p}
    (hc : c ∈ (ps.pattern p).agent.rebuilt) : c.val ∈ ps.rebuiltFrom root :=
  ((reach_closed _ [] root).2.2 p hp).resolve_left List.not_mem_nil c hc

theorem self_mem_reachable : root ∈ ps.reachable root := (reach_closed _ [] root).2.1

theorem mem_reachable_of_mem_children (hp : p ∈ ps.reachable root) {c : Fin p}
    (hc : c ∈ (ps.pattern p).agent.children) : c.val ∈ ps.reachable root :=
  ((reach_closed _ [] root).2.2 p hp).resolve_left List.not_mem_nil c hc

theorem le_of_mem_reachable (hp : p ∈ ps.reachable root) : p ≤ root := by
  simpa using mem_reach _ hp

end PatternSet

/-- The slaves of a plan are those that a rebuild comes to, each with the plan of its own rule. -/
theorem RulePlan.mem_slaves_make {ps : PatternSet s} {root : PatternId} {master : List PatternId}
    {p : PatternId} {plan : RulePlan} : (p, plan) ∈ (RulePlan.make ps root master).slaves ↔
      p ∈ ps.rebuiltFrom root ∧ ∃ through inner, (ps.pattern p).agent = .slave through inner ∧
        plan = RulePlan.make ps inner.val ((Plan.make ps root master).scope 0).keyed := by
  rw [RulePlan.make, slaves, List.mem_filterMap]
  constructor
  · rintro ⟨⟨q, hq⟩, -, hplan⟩
    dsimp only at hplan
    split at hplan
    next through inner hagent =>
      cases hplan
      exact ⟨hq, through, inner, hagent, rfl⟩
    next => cases hplan
  · rintro ⟨hp, through, inner, hagent, rfl⟩
    refine ⟨⟨p, hp⟩, List.mem_attach _ _, ?_⟩
    dsimp only
    split
    next through' inner' hagent' =>
      cases hagent.symm.trans hagent'
      rfl
    next hno => exact (hno through inner hagent).elim

/-- The plan of a rule has a plan for every slave that a rebuild comes to. -/
theorem RulePlan.slave?_make {ps : PatternSet s} {root p : PatternId} {master : List PatternId}
    (hp : p ∈ ps.rebuiltFrom root) {through inner : Fin p}
    (hagent : (ps.pattern p).agent = .slave through inner) :
    (RulePlan.make ps root master).slave? p =
      some (RulePlan.make ps inner.val ((Plan.make ps root master).scope 0).keyed) := by
  obtain ⟨plan, hplan⟩ := exists_lookup_of_mem
    (mem_slaves_make.mpr ⟨hp, through, inner, hagent, rfl⟩ :
      (p, _) ∈ (RulePlan.make ps root master).slaves)
  obtain ⟨-, through', inner', hagent', rfl⟩ := mem_slaves_make.mp (mem_of_lookup hplan)
  cases hagent.symm.trans hagent'
  exact hplan

/-! ## Rounds of search and rebuild -/

namespace Grow

variable {find : Forest s → NodeId → Except Fault (Option Couplings)}
  {rebuild : Couplings → Grow s RunError NodeId} {rule : String} {strict : Bool} {left hits : Nat}
  {f f' : Forest s} {x y : NodeId}

theorem rounds_of_error {e : Fault} (h : find f x = .error e) :
    rounds find rebuild rule strict left hits x f = .error (.fault e) f := by
  rw [rounds.eq_def]
  have hget : (get : Grow s RunError (Forest s)) f = .ok f f := rfl
  simp only [bind, EStateM.bind, hget, h]
  rfl

/-- Without a round left, a lenient run ends where it is. -/
theorem rounds_zero {found : Option Couplings} (h : find f x = .ok found) :
    rounds find rebuild rule false 0 hits x f = .ok ⟨x, hits⟩ f := by
  rw [rounds.eq_def]
  have hget : (get : Grow s RunError (Forest s)) f = .ok f f := rfl
  cases found <;> simp only [bind, EStateM.bind, hget, h] <;> rfl

theorem rounds_succ {c : Couplings} (h : find f x = .ok (some c)) (hc : rebuild c f = .ok y f') :
    rounds find rebuild rule strict (left + 1) hits x f =
      rounds find rebuild rule strict left (hits + 1) y f' := by
  rw [rounds.eq_def]
  have hget : (get : Grow s RunError (Forest s)) f = .ok f f := rfl
  simp only [bind, EStateM.bind, hget, h, hc]

end Grow

namespace Scene

variable {scene : Scene s} {root : PatternId} {master : List PatternId} {view : View} {x : NodeId}

theorem eq_keyedTwice_of_search (hw : scene.WellFormed) (hstar : scene.patterns.isStar root = false)
    (hbinds : view.Binds master) {e : Fault}
    (h : scene.search (.make scene.patterns root master) (.node x) view = .error e) :
    ∃ q, e = .keyedTwice q :=
  eq_keyedTwice_of_searchFor hw hstar (fun q hq => hbinds q (List.mem_eraseDups.mp hq)) h

theorem binds_of_search (hw : scene.WellFormed) (hstar : scene.patterns.isStar root = false)
    (hbinds : view.Binds master) {c : Couplings}
    (h : scene.search (.make scene.patterns root master) (.node x) view = .ok (some c)) :
    View.Binds (c :: view) ((Plan.make scene.patterns root master).scope 0).keyed :=
  binds_of_searchFor hw hstar (fun q hq => hbinds q (List.mem_eraseDups.mp hq)) h

end Scene

namespace Workshop

variable {shop : Workshop s} {root : PatternId} {master : List PatternId} {view : View}

/-- Rounds of a rule whose master is bound around them.  Their searches only fail by keying a
pattern twice, and what they find binds what the plan keys. -/
theorem yields_boundRounds {I : Forest s → Prop} {E : RunError → Prop}
    {P : Forest s → NodeId → Prop} {rebuild : Couplings → Grow s RunError NodeId} {f : Forest s}
    {x : NodeId} (hs : s.WellFormed) (hps : shop.patterns.WellFormed)
    (hstar : shop.patterns.isStar root = false) (hbinds : view.Binds master)
    (hI : ∀ f, I f → f.WellShaped) (hkeyed : ∀ q, E (.fault (.keyedTwice q)))
    (hcap : ∀ n, E (.possiblyInfinite shop.rule n))
    (hrebuild : ∀ f' x c, f.Extends f' → I f' → P f' x →
      Scene.search ⟨f', shop.patterns, f.size⟩ (.make shop.patterns root master) (.node x) view =
        .ok (some c) →
      View.Binds (c :: view) ((Plan.make shop.patterns root master).scope 0).keyed →
      (rebuild c).Yields f' E P I) (hf : I f) (hx : P f x) :
    (shop.rounds (RulePlan.make shop.patterns root master).search view rebuild x).Yields f E
      (fun f' a => P f' a.root) I := by
  rw [RulePlan.search_make]
  refine yields_rounds (fun f' x e _ hf' _ he => ?_) (fun f' x c hext hf' hx hc => ?_) hcap hf hx
  · obtain ⟨q, rfl⟩ := Scene.eq_keyedTwice_of_search ⟨hs, hI f' hf', hps⟩ hstar hbinds he
    exact hkeyed q
  · exact hrebuild f' x c hext hf' hx hc
      (Scene.binds_of_search ⟨hs, hI f' hf', hps⟩ hstar hbinds hc)

theorem sound_build (hs : s.WellFormed) (hps : shop.patterns.WellFormed) {p : PatternId}
    (hp : p ∈ shop.patterns.rebuiltFrom root)
    (hbinds : view.Binds ((Plan.make shop.patterns root master).scope 0).keyed) (f₀ : Forest s) :
    (Terms.plain Forest.WellShaped fun e => e.isInternal = false).Builds
      (shop.build (RulePlan.make shop.patterns root master) view) id f₀ p := by
  induction p using Nat.strongRecOn generalizing root master view f₀ with
  | ind p ih =>
    have hfits := hps.fits hs p
    refine builds_plain Forest.upheld_wellShaped (fun f hf => hf.push ?_) (fun _ => id)
      (fun q hq => ?_) (fun value members f k hagent hf hkind => ?_)
      fun through slaveRoot f f' built hagent hext hf' hbuilt => ?_
    · exact (congrArg (List.map MemberDecl.category) hs.layout_node).symm
    · exact ih q.val q.isLt (PatternSet.mem_rebuiltFrom_of_mem_rebuilt hp hq) hbinds f₀
    · -- The node is of a kind below that of the pattern, whose layout goes on from that of the
      -- pattern.
      rw [hagent] at hfits
      rw [hfits.2.1.length_eq, (hf.get hs k).length_eq]
      exact .inl (hs.layout_isPrefix hkind).length_le
    · have hstar : shop.patterns.isStar slaveRoot.val = false := by
        rw [hagent] at hfits
        exact hfits slaveRoot (by simp [Agent.children])
      rw [RulePlan.slave?_make hp hagent]
      refine yields_buildSlave hf' (by simp) ?_
      rintro _ ⟨⟩
      -- The plan of the slave was made amid what this search keys, and the view binds that.
      refine (yields_boundRounds (P := fun f'' y => f.New f'' y) hs hps hstar hbinds (fun _ => id)
        (fun _ => rfl) (fun _ => rfl) ?_ hf' hbuilt).imp fun _ _ _ _ hnew => hnew.fresh
      intro f₁ x c hext₁ hf₁ _ _ hc
      have hbuild := ih slaveRoot.val slaveRoot.isLt PatternSet.self_mem_rebuiltFrom hc f₁
      refine (Terms.single (fun _ _ _ _ => rfl) (hbuild f₁ none (.refl f₁) hf₁ (by simp))).imp ?_
      rintro f₂ y - - ⟨-, hy⟩
      exact hy.head.earlier (hext.trans hext₁)

theorem sound_run (shop : Workshop s) (hs : s.WellFormed) (hps : shop.patterns.WellFormed)
    (hstar : shop.patterns.isStar root = false) (hbinds : view.Binds master) {f : Forest s}
    (hf : f.WellShaped) (x : NodeId) :
    (shop.run (RulePlan.make shop.patterns root master) view x).Yields f
      (fun e => e.isInternal = false) (fun _ _ => True) Forest.WellShaped := by
  refine yields_boundRounds (P := fun _ _ => True) hs hps hstar hbinds (fun _ => id) (fun _ => rfl)
    (fun _ => rfl) (fun f' x c _ hf' _ _ hc => ?_) hf trivial
  rw [RulePlan.root_make]
  have hbuild := sound_build hs hps PatternSet.self_mem_rebuiltFrom hc f'
  refine (hbuild.final (fun _ _ _ _ => rfl) (.refl f') hf' (by simp)).imp ?_
  exact fun _ _ _ _ _ => trivial

end Workshop

namespace Rule

variable {name : String} {patterns : PatternSet s} {search : PatternId} {replace : Option PatternId}
  {mode : Mode} {r : Rule s}

/-- No search of a rule ends with an internal fault: neither that of `find`, which can only key a
pattern twice, nor those of the rounds of `apply`, with the rounds of slaves and the regions of
abnormal links. -/
theorem isInternal_eq_false_of_run (hs : s.WellFormed) (hps : patterns.WellFormed)
    (hr : Rule.make name patterns search replace mode = .ok r) {f : Forest s} (hf : f.WellShaped)
    (x : NodeId) :
    (∀ e, r.find f x = .error e → e.isInternal = false ∧ ∃ q, e = .keyedTwice q) ∧
    ∀ limits e f', r.apply limits x f = .error (.fault e) f' → e.isInternal = false := by
  obtain ⟨hps', root, hstar, hplan⟩ := exists_root_of_make hps hr
  have hbinds : View.Binds [] [] := fun q hq => (List.not_mem_nil hq).elim
  refine ⟨fun e he => ?_, fun limits e f' he => ?_⟩
  · rw [find, hplan, RulePlan.search_make] at he
    obtain ⟨q, rfl⟩ := Scene.eq_keyedTwice_of_search ⟨hs, hf, hps'⟩ hstar hbinds he
    exact ⟨rfl, q, rfl⟩
  · rw [apply, hplan] at he
    obtain ⟨-, -, he'⟩ := (Workshop.sound_run ⟨r.patterns, r.name, limits⟩ hs hps' hstar hbinds hf
      x).of_error he
    exact he'

theorem apply_eq (r : Rule s) (limits : Limits) (x : NodeId) (f : Forest s) :
    r.apply limits x f =
      Grow.rounds
        (fun f' x => Scene.search ⟨f', r.patterns, f.size⟩ r.plan.search (.node x) [])
        (fun c => buildFinal (Workshop.build ⟨r.patterns, r.name, limits⟩ r.plan [c]) id
          r.plan.root none)
        r.name limits.strict limits.maxRepetitions 0 x f := rfl

/-- A fault of the first search ends a run before anything is built. -/
theorem apply_of_find_eq_error {limits : Limits} {f : Forest s} {x : NodeId} {e : Fault}
    (h : r.find f x = .error e) : r.apply limits x f = .error (.fault e) f := by
  rw [apply_eq]
  exact Grow.rounds_of_error h

theorem isInternal_bothDisjunctions :
    bothDisjunctions.find (Forest.empty.push ⟨0, none, []⟩) 0 = .error (.keyedTwice 0) ∧
      bothDisjunctions.apply .standard 0 (Forest.empty.push ⟨0, none, []⟩) =
        .error (.fault (.keyedTwice 0)) (Forest.empty.push ⟨0, none, []⟩) ∧
      (Fault.keyedTwice 0).isInternal = false := by
  have hleaf : (Forest.empty.push ⟨0, none, []⟩ : Forest Schema.base).WellShaped :=
    Forest.wellShaped_empty.push (by rfl)
  have happly : bothDisjunctions.apply .standard 0 (Forest.empty.push ⟨0, none, []⟩) =
      .error (.fault (.keyedTwice 0)) (Forest.empty.push ⟨0, none, []⟩) :=
    apply_of_find_eq_error find_bothDisjunctions
  refine ⟨find_bothDisjunctions, happly, ?_⟩
  exact (isInternal_eq_false_of_run Schema.wellFormed_base wellFormed_sharedDisjunct
    make_bothDisjunctions hleaf 0).2 _ _ _ happly

end Rule

end Espalier
