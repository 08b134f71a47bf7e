import Espalier.Proofs.BuiltSchema
import Espalier.Proofs.Keying
import Espalier.RuleFile.Compile

/-!
# What compiling comes to

A rule file that compiles gives a schema that is built kind by kind, and rules whose patterns have
all been checked: whatever is compiled on the way only adds checked patterns to those that are
there.
-/

namespace Espalier

/-! ## Kinds -/

namespace Schema

variable {s s' : Schema}

/-- What every definition of a round keeps, the round keeps. -/
theorem invariant_of_defineSome {P : Schema → Prop} {kinds deferred : List KindSpec}
    (hstep : ∀ k ∈ kinds, ∀ {s s' : Schema} {parent id : KindId},
      P s → s.parentOf? k = some parent →
      define k.name parent k.members k.valued s = .ok id s' → P s')
    (hs : P s) (h : s.defineSome kinds = .ok (s', deferred)) : P s' ∧ deferred ⊆ kinds := by
  induction kinds generalizing s deferred with
  | nil =>
    cases h
    exact ⟨hs, List.Subset.refl _⟩
  | cons k ks ih =>
    rw [List.forall_mem_cons] at hstep
    rw [Schema.defineSome] at h
    split at h
    next parent hparent =>
      split at h
      next => cases h
      next id s₁ hdef =>
        obtain ⟨hs', hsub⟩ := ih hstep.2 (hstep.1 hs hparent hdef) h
        exact ⟨hs', List.subset_cons_of_subset k hsub⟩
    next =>
      split at h
      next => cases h
      next s₁ rest hsome =>
        cases h
        obtain ⟨hs', hsub⟩ := ih hstep.2 hs hsome
        exact ⟨hs', List.cons_subset_cons k hsub⟩

/-- What every definition keeps, all the rounds keep. -/
theorem invariant_of_defineAll {P : Schema → Prop} {kinds : List KindSpec}
    (hstep : ∀ k ∈ kinds, ∀ {s s' : Schema} {parent id : KindId},
      P s → s.parentOf? k = some parent →
      define k.name parent k.members k.valued s = .ok id s' → P s')
    (hs : P s) (h : s.defineAll kinds = .ok s') : P s' := by
  induction hn : kinds.length using Nat.strongRecOn generalizing s kinds with
  | ind n ih =>
    rw [Schema.defineAll] at h
    split at h
    next => cases h
    next s₁ hsome =>
      cases h
      exact (invariant_of_defineSome hstep hs hsome).1
    next s₁ k deferred hsome =>
      obtain ⟨hs₁, hsub⟩ := invariant_of_defineSome hstep hs hsome
      split at h
      next hlt => exact ih _ (hn ▸ hlt) (fun k' hk' => hstep k' (hsub hk')) hs₁ h rfl
      next => cases h

theorem Built.defineSome (hs : s.Built) {kinds deferred : List KindSpec}
    (h : s.defineSome kinds = .ok (s', deferred)) : s'.Built :=
  (invariant_of_defineSome (fun _ _ _ _ _ _ hs _ hdef => .define hs hdef) hs h).1

theorem Built.defineAll (hs : s.Built) {kinds : List KindSpec} (h : s.defineAll kinds = .ok s') :
    s'.Built :=
  invariant_of_defineAll (fun _ _ _ _ _ _ hs _ hdef => .define hs hdef) hs h

end Schema

/-! ## Patterns -/

variable {s : Schema}

namespace Compile

variable {α β : Type}

/-- A property that the steps of compiling a pattern have, and that is kept when they are put
together.  Of the errors it is asked for all but cycles, which only names come to. -/
structure Compositional (P : {α : Type} → Compile s α → Prop) : Prop where
  pure {α : Type} (a : α) : P (pure a : Compile s α)
  bind {α β : Type} {x : Compile s α} {g : α → Compile s β} : P x → (∀ a, P (g a)) → P (x >>= g)
  throw {α : Type} {e : CompileError} : (∀ rule name, e ≠ .cycle rule name) →
    P (throw e : Compile s α)
  draft_pattern (rule : String) (kind : KindId) (agent : Agent PatternId) :
    P (draft rule (Draft.pattern kind agent))
  draft_slave (rule : String) (kind : KindId) (through search : PatternId)
    (replace : Option PatternId) (mode : Mode) :
    P (draft rule (Draft.slave kind through search replace mode))

/-- A part that is compiled with the property. -/
def Part.Has (P : {α : Type} → Compile s α → Prop) : Part s → Prop
  | .one pattern => P pattern
  | .many patterns => P patterns

namespace Compositional

variable {P : {α : Type} → Compile s α → Prop} {resolve : String → Compile s PatternId}

theorem fail (hP : Compositional P) (rule : String) (e : PatternError) :
    P (fail rule e : Compile s α) :=
  hP.throw (by simp)

theorem mapM (hP : Compositional P) {g : α → Compile s β} {xs : List α} (h : ∀ a ∈ xs, P (g a)) :
    P (xs.mapM g) := by
  induction xs with
  | nil => exact hP.pure []
  | cons a xs ih =>
    rw [List.mapM_cons]
    rw [List.forall_mem_cons] at h
    exact hP.bind h.1 fun b => hP.bind (ih h.2) fun bs => hP.pure _

theorem kindOf (hP : Compositional P) (rule : String) (kind : Option String) :
    P (kindOf rule kind : Compile s KindId) := by
  cases kind with
  | none => exact hP.pure _
  | some name =>
    rw [Compile.kindOf]
    split
    · exact hP.pure _
    · exact hP.fail rule _

theorem members (hP : Compositional P) (rule : String) (kind : KindId)
    {given : List (String × Part s)} (h : ∀ e ∈ given, e.2.Has P) :
    P (members rule kind given) := by
  rw [Compile.members]
  split
  next => exact hP.fail rule _
  next =>
    refine hP.mapM ?_
    rintro ⟨d, index⟩ -
    dsimp only
    split
    next => exact hP.pure _
    next pattern hlookup =>
      have hpattern : P pattern := h _ (mem_of_lookup hlookup)
      split
      · exact hP.bind hpattern fun p => hP.pure _
      · exact hP.fail rule _
    next patterns hlookup =>
      have hpatterns : P patterns := h _ (mem_of_lookup hlookup)
      split
      · exact hP.fail rule _
      · exact hP.bind hpatterns fun ps => hP.pure _
      · exact hP.bind hpatterns fun ps => hP.pure _

mutual

/-- A pattern is compiled with the property if the names in it are resolved with it. -/
theorem pattern (hP : Compositional P) (rule : String) :
    (p : PatternSpec) → (∀ q ∈ p.parts, ∀ name ∈ q.name, P (resolve name)) →
      P (pattern rule resolve p)
  | .mk (some name) kind agent, h => by
    rw [PatternSpec.parts, List.forall_mem_cons] at h
    rw [Compile.pattern]
    exact h.1 name rfl
  | .mk none kind agent, h => by
    rw [PatternSpec.parts, List.forall_mem_cons] at h
    rw [Compile.pattern]
    exact hP.define rule kind agent h.2

theorem define (hP : Compositional P) (rule : String) (kind : Option String) :
    (agent : AgentSpec) → (∀ q ∈ agent.parts, ∀ name ∈ q.name, P (resolve name)) →
      P (define rule resolve kind agent)
  | .standard value given, h => by
    rw [AgentSpec.parts] at h
    rw [Compile.define]
    exact hP.bind (hP.kindOf rule kind) fun k =>
      hP.bind (hP.members rule k (hP.parts rule given h)) fun ms =>
      hP.draft_pattern rule k _
  | .star restriction, h => by
    rw [AgentSpec.parts] at h
    rw [Compile.define]
    exact hP.bind (hP.kindOf rule kind) fun k => hP.bind (hP.option rule restriction h) fun r =>
      hP.draft_pattern rule k _
  | .stuff terminus restriction, h => by
    rw [AgentSpec.parts, List.forall_mem_append] at h
    rw [Compile.define]
    exact hP.bind (hP.kindOf rule kind) fun k => hP.bind (hP.pattern rule terminus h.1) fun t =>
      hP.bind (hP.option rule restriction h.2) fun r => hP.draft_pattern rule k _
  | .anyNode terminus, h => by
    rw [AgentSpec.parts] at h
    rw [Compile.define]
    exact hP.bind (hP.kindOf rule kind) fun k => hP.bind (hP.pattern rule terminus h) fun t =>
      hP.draft_pattern rule k _
  | .overlay through above, h => by
    rw [AgentSpec.parts, List.forall_mem_append] at h
    rw [Compile.define]
    exact hP.bind (hP.kindOf rule kind) fun k => hP.bind (hP.pattern rule through h.1) fun t =>
      hP.bind (hP.pattern rule above h.2) fun a => hP.draft_pattern rule k _
  | .notMatch p, h => by
    rw [AgentSpec.parts] at h
    rw [Compile.define]
    exact hP.bind (hP.kindOf rule kind) fun k => hP.bind (hP.pattern rule p h) fun q =>
      hP.draft_pattern rule k _
  | .matchAll ps, h => by
    rw [AgentSpec.parts] at h
    rw [Compile.define]
    exact hP.bind (hP.kindOf rule kind) fun k => hP.bind (hP.list rule ps h) fun qs =>
      hP.draft_pattern rule k _
  | .matchAny ps, h => by
    rw [AgentSpec.parts] at h
    rw [Compile.define]
    exact hP.bind (hP.kindOf rule kind) fun k => hP.bind (hP.list rule ps h) fun qs =>
      hP.draft_pattern rule k _
  | .greenGrass through, h => by
    rw [AgentSpec.parts] at h
    rw [Compile.define]
    exact hP.bind (hP.kindOf rule kind) fun k => hP.bind (hP.pattern rule through h) fun t =>
      hP.draft_pattern rule k _
  | .slave through search replace mode, h => by
    rw [AgentSpec.parts, List.forall_mem_append, List.forall_mem_append] at h
    rw [Compile.define]
    exact hP.bind (hP.kindOf rule kind) fun k => hP.bind (hP.pattern rule through h.1.1) fun t =>
      hP.bind (hP.pattern rule search h.1.2) fun q => hP.bind (hP.option rule replace h.2) fun r =>
        hP.draft_slave rule k t q r mode
  | .ref, h => by
    rw [Compile.define]
    exact hP.bind (hP.kindOf rule kind) fun k => hP.throw (by simp)

theorem option (hP : Compositional P) (rule : String) :
    (p : Option PatternSpec) → (∀ q ∈ optionParts p, ∀ name ∈ q.name, P (resolve name)) →
      P (option rule resolve p)
  | none, h => by
    rw [Compile.option]
    exact hP.pure none
  | some p, h => by
    rw [optionParts] at h
    rw [Compile.option]
    exact hP.bind (hP.pattern rule p h) fun q => hP.pure _

theorem list (hP : Compositional P) (rule : String) :
    (ps : List PatternSpec) → (∀ q ∈ listParts ps, ∀ name ∈ q.name, P (resolve name)) →
      P (list rule resolve ps)
  | [], h => by
    rw [Compile.list]
    exact hP.pure []
  | p :: ps, h => by
    rw [listParts, List.forall_mem_append] at h
    rw [Compile.list]
    exact hP.bind (hP.pattern rule p h.1) fun q => hP.bind (hP.list rule ps h.2) fun qs => hP.pure _

theorem parts (hP : Compositional P) (rule : String) :
    (ms : List (String × MemberPattern)) →
      (∀ q ∈ membersParts ms, ∀ name ∈ q.name, P (resolve name)) →
      ∀ e ∈ parts rule resolve ms, e.2.Has P
  | [], h => by
    rw [Compile.parts]
    exact List.forall_mem_nil _
  | (name, m) :: ms, h => by
    rw [membersParts, List.forall_mem_append] at h
    rw [Compile.parts]
    exact List.forall_mem_cons.mpr ⟨hP.part rule m h.1, hP.parts rule ms h.2⟩

theorem part (hP : Compositional P) (rule : String) :
    (m : MemberPattern) → (∀ q ∈ m.parts, ∀ name ∈ q.name, P (resolve name)) →
      (part rule resolve m).Has P
  | .one p, h => by
    rw [MemberPattern.parts] at h
    rw [Compile.part]
    exact hP.pattern rule p h
  | .many ps, h => by
    rw [MemberPattern.parts] at h
    rw [Compile.part]
    exact hP.list rule ps h

end

end Compositional

/-- Where the patterns so far are well-formed, they are so afterwards. -/
def Keeps (x : Compile s α) : Prop :=
  ∀ c a c', c.patterns.WellFormed → x c = .ok a c' → c'.patterns.WellFormed

namespace Keeps

variable {x : Compile s α}

theorem pure (a : α) : (pure a : Compile s α).Keeps := by
  rintro c _ _ hc ⟨⟩
  exact hc

theorem throw (e : CompileError) : (throw e : Compile s α).Keeps := by
  rintro c _ _ hc ⟨⟩

theorem bind {g : α → Compile s β} (hx : x.Keeps) (hg : ∀ a, (g a).Keeps) : (x >>= g).Keeps := by
  intro c b c' hc h
  simp only [Bind.bind, EStateM.bind] at h
  split at h
  next a c₁ ha => exact hg a c₁ b c' (hx c a c₁ hc ha) h
  next => cases h

theorem get {g : Compiled s → Compile s β} (hg : ∀ c, (g c).Keeps) : (get >>= g).Keeps :=
  fun c b c' hc h => hg c c b c' hc h

theorem draft (rule : String) {d : Draft s α}
    (hd : ∀ ps a ps', ps.WellFormed → d ps = .ok a ps' → ps'.WellFormed) :
    (draft rule d).Keeps := by
  intro c a c' hc h
  unfold Compile.draft at h
  split at h
  next a' ps hrun =>
    cases h
    exact hd c.patterns _ ps hc hrun
  next => cases h

end Keeps

theorem compositional_keeps : Compositional (s := s) Keeps where
  pure := .pure
  bind := .bind
  throw _ := .throw _
  draft_pattern rule _ _ := .draft rule fun _ _ _ hps h => (hps.draft_pattern h).1
  draft_slave rule kind through search replace mode := by
    refine .draft rule fun ps p ps' hps h => ?_
    simp only [Draft.slave, Bind.bind, EStateM.bind] at h
    split at h
    next root ps₁ hwrap => exact ((hps.wrap hwrap).1.draft_pattern h).1
    next => cases h

theorem keeps_named (rule : String) (definitions : List (String × PatternSpec)) (left : Nat)
    (building : List String) (name : String) :
    (named rule definitions left building name : Compile s PatternId).Keeps := by
  induction left generalizing building name with
  | zero =>
    rw [named]
    refine .get fun c => ?_
    split
    next => exact .pure _
    next =>
      split
      next => exact .throw _
      next =>
        split
        · exact .throw _
        · exact .throw _
  | succ left ih =>
    rw [named]
    refine .get fun c => ?_
    split
    next => exact .pure _
    next =>
      split
      next => exact .throw _
      next kind agent _ =>
        split
        · exact .throw _
        · refine (compositional_keeps.define rule kind agent fun _ _ name' _ =>
            ih (name :: building) name').bind fun id => ?_
          refine Keeps.bind ?_ fun _ => .pure id
          rintro c _ _ hc ⟨⟩
          exact hc

end Compile

/-! ## Rules -/

theorem RuleSpec.wellFormed_of_compile {info : Metadata} {r : RuleSpec} {rule : LimitedRule s}
    (h : r.compile info s = .ok rule) : rule.rule.patterns.WellFormed := by
  unfold RuleSpec.compile at h
  dsimp only at h
  split at h
  next => cases h
  next search replace compiled hrun =>
    split at h
    next => cases h
    next made hmake =>
      cases h
      refine (Rule.exists_root_of_make ?_ hmake).1
      have hresolve := Compile.keeps_named (s := s) r.id r.definitions r.definitions.length []
      have hkeeps := (Compile.compositional_keeps.pattern r.id r.search fun _ _ name _ =>
        hresolve name).bind fun p =>
          (Compile.compositional_keeps.option r.id r.replace fun _ _ name _ => hresolve name).bind
          fun q => .pure (p, q)
      exact hkeeps _ _ _ PatternSet.wellFormed_empty hrun

theorem exists_of_mem_mapM {ε α β : Type} {g : α → Except ε β} {xs : List α} {ys : List β}
    (h : xs.mapM g = .ok ys) {y : β} (hy : y ∈ ys) : ∃ x ∈ xs, g x = .ok y := by
  induction xs generalizing ys with
  | nil =>
    cases h
    cases hy
  | cons x xs ih =>
    rw [List.mapM_cons] at h
    cases hx : g x with
    | error e =>
      rw [hx] at h
      cases h
    | ok z =>
      rw [hx] at h
      cases hxs : xs.mapM g with
      | error e =>
        rw [hxs] at h
        cases h
      | ok zs =>
        rw [hxs] at h
        cases h
        rcases List.mem_cons.mp hy with rfl | hy
        · exact ⟨x, List.mem_cons_self, hx⟩
        · obtain ⟨x', hx', hgx'⟩ := ih hxs hy
          exact ⟨x', List.mem_cons_of_mem _ hx', hgx'⟩

/-- The kinds of a compiled rule file have been defined one by one, and the patterns of its rules
have been checked. -/
theorem RuleFile.wellFormed_of_compile {file : RuleFile} {set : RuleSet}
    (h : file.compile = .ok set) :
    set.schema.Built ∧ ∀ r ∈ set.rules, r.rule.patterns.WellFormed := by
  rw [RuleFile.compile] at h
  cases hschema : Schema.ofKinds file.kinds with
  | error e =>
    rw [hschema] at h
    cases h
  | ok schema =>
    rw [hschema] at h
    cases hrules : file.rules.mapM (·.compile file.info schema) with
    | error e =>
      simp only [Bind.bind, Except.bind, hrules] at h
      cases h
    | ok rules =>
      simp only [Bind.bind, Except.bind, hrules] at h
      cases h
      refine ⟨Schema.Built.base.defineAll hschema, fun r hr => ?_⟩
      obtain ⟨spec, -, hspec⟩ := exists_of_mem_mapM hrules hr
      exact spec.wellFormed_of_compile hspec

end Espalier
