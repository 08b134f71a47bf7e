import Espalier.Proofs.Validation

/-!
# How names are resolved

To compile what a name stands for is a recursion that needs no bound: the names whose definitions it
is in are among those that the rule defines, and are never entered twice.  With any bound that is at
least the number of definitions it comes to the same.  A cycle is reported for a name only if the
definition of the name leads back to it.
-/

namespace Espalier

variable {s : Schema}

namespace Compile

/-- How many definitions are of names that are not being built. -/
def unbuilt (definitions : List (String × PatternSpec)) (building : List String) : Nat :=
  (definitions.filter fun e => !building.contains e.1).length

theorem unbuilt_cons_lt {definitions : List (String × PatternSpec)} {building : List String}
    {name : String} {p : PatternSpec} (hdef : definitions.lookup name = some p)
    (hnew : ¬ building.contains name = true) :
    unbuilt definitions (name :: building) < unbuilt definitions building := by
  have hfilter : definitions.filter (fun e => !(name :: building).contains e.1) =
      (definitions.filter fun e => !building.contains e.1).filter fun e => !e.1 == name := by
    rw [List.filter_filter]
    refine List.filter_congr fun e _ => ?_
    rw [List.contains_cons, Bool.not_or]
  rw [unbuilt, unbuilt, hfilter, List.length_filter_lt_length_iff_exists]
  exact ⟨(name, p), List.mem_filter.mpr ⟨mem_of_lookup hdef, by simpa using hnew⟩, by simp⟩

theorem unbuilt_le_length (definitions : List (String × PatternSpec)) (building : List String) :
    unbuilt definitions building ≤ definitions.length :=
  List.length_filter_le _ _

/-- Compile what a name stands for, once, where `building` are the names whose definitions it was
met in. -/
def resolved (rule : String) (definitions : List (String × PatternSpec)) (building : List String)
    (name : String) : Compile s PatternId := do
  match (← get).names.lookup name with
  | some id => return id
  | none =>
    match _hdef : definitions.lookup name with
    | none => throw (.unknownName rule name)
    | some (.mk _ kind agent) =>
      if _hnew : building.contains name then throw (.cycle rule name)
      else do
        let id ← define rule (fun name' => resolved rule definitions (name :: building) name')
          kind agent
        modify fun c => { c with names := (name, id) :: c.names }
        return id
termination_by unbuilt definitions building
decreasing_by exact unbuilt_cons_lt _hdef _hnew

theorem resolved_eq (rule : String) (definitions : List (String × PatternSpec))
    (building : List String) (name : String) :
    (resolved rule definitions building name : Compile s PatternId) = do
      match (← get).names.lookup name with
      | some id => return id
      | none =>
        match definitions.lookup name with
        | none => throw (.unknownName rule name)
        | some (.mk _ kind agent) =>
          if building.contains name then throw (.cycle rule name)
          else do
            let id ← define rule (resolved rule definitions (name :: building)) kind agent
            modify fun c => { c with names := (name, id) :: c.names }
            return id := by
  rw [resolved]
  refine bind_congr fun c => ?_
  cases c.names.lookup name with
  | some id => rfl
  | none =>
    dsimp only
    split
    next hnone => rw [hnone]
    next kind agent hsome => rw [hsome, dite_eq_ite]

theorem named_eq_resolved (rule : String) {definitions : List (String × PatternSpec)} {left : Nat}
    {building : List String} (h : unbuilt definitions building ≤ left) :
    (named rule definitions left building : String → Compile s PatternId) =
      resolved rule definitions building := by
  induction left generalizing building with
  | zero =>
    funext name
    rw [named, resolved_eq]
    refine bind_congr fun c => ?_
    cases c.names.lookup name with
    | some id => rfl
    | none =>
      cases hdef : definitions.lookup name with
      | none => rfl
      | some p =>
        -- All that is defined is being built, this name with it.
        have hbuilding : building.contains name = true := by
          by_contra hnew
          exact Nat.not_lt_zero _ (Nat.lt_of_lt_of_le (unbuilt_cons_lt hdef hnew) h)
        obtain ⟨_, kind, agent⟩ := p
        dsimp only
        rw [if_pos hbuilding, if_pos hbuilding]
  | succ left ih =>
    funext name
    rw [named, resolved_eq]
    refine bind_congr fun c => ?_
    cases c.names.lookup name with
    | some id => rfl
    | none =>
      cases hdef : definitions.lookup name with
      | none => rfl
      | some p =>
        obtain ⟨_, kind, agent⟩ := p
        dsimp only
        split
        next => rfl
        next hnew =>
          have hlt := unbuilt_cons_lt hdef hnew
          rw [ih (Nat.le_of_lt_succ (Nat.lt_of_lt_of_le hlt h))]

/-! ## Cycles -/

variable {α β : Type}

/-- If the computation fails because of a cycle, the cycle is one of those in `E`. -/
def Reports (E : String → String → Prop) (x : Compile s α) : Prop :=
  ∀ c rule name c', x c = .error (.cycle rule name) c' → E rule name

namespace Reports

variable {E : String → String → Prop} {x : Compile s α}

theorem pure (a : α) : (pure a : Compile s α).Reports E := by
  rintro c _ _ _ ⟨⟩

theorem throw {e : CompileError} (h : ∀ rule name, e = .cycle rule name → E rule name) :
    (throw e : Compile s α).Reports E := by
  rintro c rule name _ ⟨⟩
  exact h rule name rfl

theorem bind {g : α → Compile s β} (hx : x.Reports E) (hg : ∀ a, (g a).Reports E) :
    (x >>= g).Reports E := by
  intro c rule name c' h
  simp only [Bind.bind, EStateM.bind] at h
  split at h
  next a c₁ _ => exact hg a c₁ rule name c' h
  next e c₁ he =>
    cases h
    exact hx c rule name c' he

theorem draft (rule : String) (d : Draft s α) : (draft rule d).Reports E := by
  intro c rule' name c' h
  unfold Compile.draft at h
  split at h
  next => cases h
  next => cases h

end Reports

theorem compositional_reports (E : String → String → Prop) :
    Compositional (s := s) fun x => x.Reports E where
  pure := .pure
  bind := .bind
  throw h := .throw fun rule name heq => absurd heq (h rule name)
  draft_pattern rule _ _ := .draft rule _
  draft_slave rule _ _ _ _ _ := .draft rule _

end Compile

namespace RuleSpec

/-- The definition of `name` contains a use of `used`, be it a definition or a reference. -/
def Uses (r : RuleSpec) (name used : String) : Prop :=
  ∃ p, r.definitions.lookup name = some p ∧ ∃ q ∈ p.agent.parts, q.name = some used

/-- A name that is resolved below definitions that lead to it is reported only if it leads back to
itself. -/
theorem reports_resolved (r : RuleSpec) {building : List String} {name : String}
    (h : ∀ outer ∈ building, Relation.TransGen r.Uses outer name) :
    (Compile.resolved r.id r.definitions building name : Compile s PatternId).Reports
      fun rule name =>
      rule = r.id ∧ Relation.TransGen r.Uses name name := by
  induction hn : Compile.unbuilt r.definitions building using Nat.strongRecOn generalizing building
    name with
  | ind n ih =>
    rw [Compile.resolved_eq]
    refine Compile.Reports.bind (fun _ _ _ _ hget => by cases hget) fun c => ?_
    split
    next => exact .pure _
    next =>
      split
      next => exact .throw (by simp)
      next _ kind agent hdef =>
        split
        next hbuilding =>
          refine .throw ?_
          rintro _ _ ⟨⟩
          exact ⟨rfl, h name (List.contains_iff_mem.mp hbuilding)⟩
        next hnew =>
          have hlt := hn ▸ Compile.unbuilt_cons_lt hdef hnew
          refine Compile.Reports.bind ?_ fun id =>
            Compile.Reports.bind (fun _ _ _ _ hmodify => by cases hmodify) fun _ => .pure id
          refine (Compile.compositional_reports _).define r.id kind agent fun q hq used hused => ?_
          refine ih _ hlt ?_ rfl
          have huses : r.Uses name used := ⟨_, hdef, q, hq, hused⟩
          exact List.forall_mem_cons.mpr ⟨.single huses, fun outer houter =>
            (h outer houter).tail huses⟩

/-- Compile the search pattern and the replacement of a rule. -/
def draft (r : RuleSpec) (resolve : String → Compile s PatternId) :
    Compile s (PatternId × Option PatternId) := do
  let search ← Compile.pattern r.id resolve r.search
  let replace ← Compile.option r.id resolve r.replace
  return (search, replace)

/-- What the patterns of a rule are compiled to, with no bound on how names are resolved. -/
def drafted (s : Schema) (r : RuleSpec) :
    EStateM.Result CompileError (Compiled s) (PatternId × Option PatternId) :=
  (r.draft (Compile.resolved r.id r.definitions [])).run ⟨.empty, []⟩

/-- Make a rule of what its patterns have been compiled to. -/
def finish (info : Metadata) (r : RuleSpec) :
    EStateM.Result CompileError (Compiled s) (PatternId × Option PatternId) →
      Except CompileError (LimitedRule s)
  | .error e _ => .error e
  | .ok (search, replace) compiled =>
    match Rule.make r.id compiled.patterns search replace r.mode with
    | .error e => .error (.pattern r.id e)
    | .ok rule =>
      .ok {
        rule
        limits := ⟨r.maxRepetitions.getD info.maxRepetitions, info.strict⟩
        description := r.description }

theorem compile_eq_finish (info : Metadata) (r : RuleSpec) :
    r.compile info s = r.finish info (r.drafted s) := by
  rw [drafted, ← Compile.named_eq_resolved r.id (Compile.unbuilt_le_length r.definitions [])]
  rfl

theorem exists_drafted_of_compile_cycle {info : Metadata} {r : RuleSpec} {rule name : String}
    (h : r.compile info s = .error (.cycle rule name)) :
    ∃ c, r.drafted s = .error (.cycle rule name) c := by
  rw [compile_eq_finish] at h
  unfold finish at h
  split at h
  next e c hdrafted =>
    cases h
    exact ⟨c, hdrafted⟩
  next =>
    split at h
    next => cases h
    next => cases h

/-- A cycle is reported for a name only if the definition of the name leads back to it. -/
theorem transGen_uses_of_compile {info : Metadata} {r : RuleSpec} {rule name : String}
    (h : r.compile info s = .error (.cycle rule name)) :
    rule = r.id ∧ Relation.TransGen r.Uses name name := by
  obtain ⟨c, hdrafted⟩ := exists_drafted_of_compile_cycle h
  have hresolve : ∀ used,
      (Compile.resolved r.id r.definitions [] used : Compile s PatternId).Reports
        fun rule name => rule = r.id ∧ Relation.TransGen r.Uses name name :=
    fun used => r.reports_resolved (List.forall_mem_nil _)
  have hreports := ((Compile.compositional_reports _).pattern r.id r.search fun _ _ used _ =>
    hresolve used).bind fun search =>
      ((Compile.compositional_reports _).option r.id r.replace fun _ _ used _ => hresolve used).bind
        fun replace => .pure (search, replace)
  exact hreports _ rule name c hdrafted

end RuleSpec

end Espalier
