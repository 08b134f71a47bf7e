import Espalier.Proofs.DefiningKinds
import Espalier.RuleFile.Validation

/-!
# What validation rules out

Validation looks at names only, and compiling looks them up again.  Where a rule file is valid every
name is found, so of the errors that speak of names none is left, but for kinds that descend from
themselves and for patterns that contain themselves.  The other checks of a compiler, of members,
values and stars, are not the business of validation.
-/

namespace Espalier

/-- A reference to a pattern that is not there, a disjunction without a disjunct, a kind that is not
known, and members of another number than the kind has. -/
def PatternError.isForeseen : PatternError → Bool
  | .unknownPattern _ | .emptyDisjunction _ => true
  | .schema (.unknownKind _) | .schema (.memberCount ..) => true
  | _ => false

/-- The errors that a valid rule file never comes to: those, a name that is not defined, and a kind
that is defined twice. -/
def CompileError.isForeseen : CompileError → Bool
  | .unknownName .. | .kind _ (.duplicateKind _) => true
  | .pattern _ e => e.isForeseen
  | _ => false

/-- The errors that are left for the rules of a valid file. -/
inductive CompileError.Remaining : CompileError → Prop where
  | cycle (rule name : String) : Remaining (.cycle rule name)
  | pattern (rule : String) {e : PatternError} (h : e.isForeseen = false) :
      Remaining (.pattern rule e)

/-! ## What a valid file says -/

theorem mem_of_checkKind {rule : Option String} {known : List String} {name : String}
    (h : checkKind rule known name = []) : name ∈ known := by
  unfold checkKind at h
  split at h
  next hmem => exact List.contains_iff_mem.mp hmem
  next => cases h

theorem mem_of_checkKind_toList {rule : Option String} {known : List String} {name? : Option String}
    (h : name?.toList.flatMap (checkKind rule known) = []) : ∀ name ∈ name?, name ∈ known :=
  fun name hname => mem_of_checkKind (List.flatMap_eq_nil_iff.mp h name
    (Option.mem_toList.mpr hname))

theorem of_checkKinds {known seen : List String} {ks : List KindSpec}
    (h : checkKinds known seen ks = []) :
    (ks.map (·.name)).Nodup ∧
      ∀ k ∈ ks, k.name ∉ seen ∧ k.name ≠ "Node" ∧ ∀ parent ∈ k.parent, parent ∈ known := by
  induction ks generalizing seen with
  | nil => exact ⟨List.nodup_nil, List.forall_mem_nil _⟩
  | cons k ks ih =>
    rw [checkKinds] at h
    split at h
    next issues seen' hif =>
      obtain ⟨⟨rfl, hparent⟩, hrest⟩ := by simpa only [List.append_eq_nil_iff] using h
      -- Without an issue the name is new and is noted.
      obtain ⟨hnew, hnode, rfl⟩ : k.name ∉ seen ∧ k.name ≠ "Node" ∧ seen' = k.name :: seen := by
        split at hif
        next => cases hif
        next =>
          split at hif
          next => cases hif
          next hissue =>
            have hfree : k.name ∉ seen ∧ k.name ≠ "Node" := by simpa using hissue
            exact ⟨hfree.1, hfree.2, (Prod.mk.inj hif).2.symm⟩
      obtain ⟨hdistinct, hks⟩ := ih hrest
      refine ⟨List.nodup_cons.mpr ⟨fun hmem => ?_, hdistinct⟩, List.forall_mem_cons.mpr ⟨?_, ?_⟩⟩
      · obtain ⟨k', hk', heq⟩ := List.mem_map.mp hmem
        exact (hks k' hk').1 (heq ▸ List.mem_cons_self)
      · exact ⟨hnew, hnode, mem_of_checkKind_toList hparent⟩
      · exact fun k' hk' => ⟨fun hseen => (hks k' hk').1 (List.mem_cons_of_mem _ hseen),
          (hks k' hk').2⟩

theorem checkPatterns_of_checkRules {known seen : List String} {rs : List RuleSpec}
    (h : checkRules known seen rs = []) : ∀ r ∈ rs, r.checkPatterns known = [] := by
  induction rs generalizing seen with
  | nil => exact List.forall_mem_nil _
  | cons r rs ih =>
    rw [checkRules] at h
    split at h
    next issues seen' _ =>
      simp only [List.append_eq_nil_iff] at h
      exact List.forall_mem_cons.mpr ⟨h.1.2, ih h.2⟩

theorem isSome_name_of_checkNames {rule : String} {seen : List String} {ps : List PatternSpec}
    (h : checkNames rule seen ps = []) : ∀ p ∈ ps, p.isRef = true → p.name.isSome = true := by
  induction ps generalizing seen with
  | nil => exact List.forall_mem_nil _
  | cons p ps ih =>
    rw [checkNames] at h
    rw [List.forall_mem_cons]
    split at h
    next name hname href =>
      refine ⟨fun h' => by simp [h'] at href, ?_⟩
      split at h
      next => cases h
      next => exact ih h
    next => cases h
    next hnone =>
      refine ⟨fun href => ?_, ih h⟩
      cases hname : p.name with
      | none => exact (hnone hname href).elim
      | some name => rfl

/-- A pattern that is left without an issue, where `known` are the kinds and `defined` the names
that patterns of the rule define. -/
structure PatternSpec.Valid (known defined : List String) (p : PatternSpec) : Prop where
  named : p.isRef = true → p.name.isSome = true
  name_mem : ∀ name ∈ p.name, name ∈ defined
  kind_mem : ∀ kind ∈ p.kind, kind ∈ known
  disjunct : p.agent ≠ .matchAny []

theorem RuleSpec.mem_definitions {r : RuleSpec} {name : String} {p : PatternSpec} :
    (name, p) ∈ r.definitions ↔ p ∈ r.patterns ∧ p.isRef = false ∧ p.name = some name := by
  constructor
  · intro h
    obtain ⟨q, hq, hpair⟩ := List.mem_filterMap.mp h
    split at hpair
    next => cases hpair
    next href =>
      obtain ⟨name', hname, heq⟩ := Option.map_eq_some_iff.mp hpair
      cases heq
      exact ⟨hq, by simpa using href, hname⟩
  · rintro ⟨hp, href, hname⟩
    exact List.mem_filterMap.mpr ⟨p, hp, by simp [href, hname]⟩

theorem RuleSpec.exists_definition {r : RuleSpec} {name : String}
    (h : name ∈ r.definitions.map Prod.fst) :
    ∃ p ∈ r.patterns, r.definitions.lookup name = some p ∧ p.isRef = false := by
  obtain ⟨⟨_, q⟩, hq, rfl⟩ := List.mem_map.mp h
  obtain ⟨p, hp⟩ := exists_lookup_of_mem hq
  obtain ⟨hmem, href, -⟩ := RuleSpec.mem_definitions.mp (mem_of_lookup hp)
  exact ⟨p, hmem, hp, href⟩

theorem RuleSpec.valid_of_checkPatterns {r : RuleSpec} {known : List String}
    (h : r.checkPatterns known = []) :
    ∀ p ∈ r.patterns, p.Valid known (r.definitions.map Prod.fst) := by
  intro p hp
  obtain ⟨hnames, hpatterns⟩ := List.append_eq_nil_iff.mp h
  have hcheck := List.flatMap_eq_nil_iff.mp hpatterns p hp
  unfold checkPattern at hcheck
  obtain ⟨⟨hname, hkind⟩, hdisjunct⟩ := by simpa only [List.append_eq_nil_iff] using hcheck
  have hnamed := isSome_name_of_checkNames hnames p hp
  refine ⟨hnamed, fun name hpname => ?_, mem_of_checkKind_toList hkind, fun hany => ?_⟩
  · -- A name is defined by the pattern itself, unless it is a reference.
    cases href : p.isRef with
    | false =>
      exact List.mem_map.mpr ⟨(name, p), RuleSpec.mem_definitions.mpr ⟨hp, href, hpname⟩, rfl⟩
    | true =>
      rw [Option.mem_def.mp hpname, href] at hname
      dsimp only at hname
      split at hname
      next hmem => exact List.mem_eraseDups.mp (List.contains_iff_mem.mp hmem)
      next => cases hname
  · rw [hany] at hdisjunct
    cases hdisjunct

/-! ## Parts -/

/-- With every pattern the list has its parts. -/
def Closed (ps : List PatternSpec) : Prop := ∀ p ∈ ps, p.parts ⊆ ps

theorem Closed.append {ps qs : List PatternSpec} (hps : Closed ps) (hqs : Closed qs) :
    Closed (ps ++ qs) := by
  refine List.forall_mem_append.mpr ⟨fun p hp => ?_, fun q hq => ?_⟩
  · exact List.subset_append_of_subset_left qs (hps p hp)
  · exact List.subset_append_of_subset_right ps (hqs q hq)

mutual

theorem PatternSpec.closed_parts : (p : PatternSpec) → Closed p.parts
  | .mk name kind agent => by
    rw [PatternSpec.parts]
    refine List.forall_mem_cons.mpr ⟨by rw [PatternSpec.parts]; exact List.Subset.refl _,
      fun q hq => ?_⟩
    exact List.subset_cons_of_subset _ (agent.closed_parts q hq)

theorem AgentSpec.closed_parts : (a : AgentSpec) → Closed a.parts
  | .standard _ members => by
    rw [AgentSpec.parts]
    exact closed_membersParts members
  | .star restriction => by
    rw [AgentSpec.parts]
    exact closed_optionParts restriction
  | .stuff terminus restriction => by
    rw [AgentSpec.parts]
    exact terminus.closed_parts.append (closed_optionParts restriction)
  | .anyNode terminus => by
    rw [AgentSpec.parts]
    exact terminus.closed_parts
  | .overlay through above => by
    rw [AgentSpec.parts]
    exact through.closed_parts.append above.closed_parts
  | .notMatch p => by
    rw [AgentSpec.parts]
    exact p.closed_parts
  | .matchAll ps => by
    rw [AgentSpec.parts]
    exact closed_listParts ps
  | .matchAny ps => by
    rw [AgentSpec.parts]
    exact closed_listParts ps
  | .greenGrass through => by
    rw [AgentSpec.parts]
    exact through.closed_parts
  | .slave through search replace _ => by
    rw [AgentSpec.parts]
    exact (through.closed_parts.append search.closed_parts).append (closed_optionParts replace)
  | .ref => by
    rw [AgentSpec.parts]
    exact List.forall_mem_nil _

theorem MemberPattern.closed_parts : (m : MemberPattern) → Closed m.parts
  | .one p => by
    rw [MemberPattern.parts]
    exact p.closed_parts
  | .many ps => by
    rw [MemberPattern.parts]
    exact closed_listParts ps

theorem closed_optionParts : (p : Option PatternSpec) → Closed (optionParts p)
  | none => by
    rw [optionParts]
    exact List.forall_mem_nil _
  | some p => by
    rw [optionParts]
    exact p.closed_parts

theorem closed_listParts : (ps : List PatternSpec) → Closed (listParts ps)
  | [] => by
    rw [listParts]
    exact List.forall_mem_nil _
  | p :: ps => by
    rw [listParts]
    exact p.closed_parts.append (closed_listParts ps)

theorem closed_membersParts : (ms : List (String × MemberPattern)) → Closed (membersParts ms)
  | [] => by
    rw [membersParts]
    exact List.forall_mem_nil _
  | (_, m) :: ms => by
    rw [membersParts]
    exact m.closed_parts.append (closed_membersParts ms)

end

theorem RuleSpec.closed_patterns (r : RuleSpec) : Closed r.patterns :=
  r.search.closed_parts.append (closed_optionParts r.replace)

/-! ## Patterns -/

variable {s : Schema}

namespace PatternSet

variable {ps : PatternSet s}

theorem isForeseen_of_checkMembers {kind : String} {index : Nat} {layout : List MemberDecl}
    {members : List (Member PatternId)} {e : PatternError}
    (h : ps.checkMembers kind index layout members = .error e) : e.isForeseen = false := by
  induction layout generalizing index members with
  | nil => simp [checkMembers] at h
  | cons d ds ih =>
    cases members with
    | nil => simp [checkMembers] at h
    | cons m ms =>
      unfold checkMembers at h
      split at h
      next =>
        cases h
        rfl
      next =>
        split at h
        next =>
          cases h
          rfl
        next =>
          cases h
          rfl
        next => exact ih h

/-- A pattern of a kind that is there, over patterns that are there, is refused for none of the
foreseen reasons. -/
theorem isForeseen_of_check {kind : KindId} {agent : Agent PatternId} {e : PatternError}
    (hkind : kind < s.size) (hlow : ∀ c ∈ agent.children, c < ps.size) (hany : agent ≠ .matchAny [])
    (hcount : ∀ value members, agent = .standard value members →
      members.length = (s.layout kind).length)
    (h : ps.check kind agent = .error e) : e.isForeseen = false := by
  have hfind : agent.children.find? (ps.size ≤ ·) = none := by simpa using hlow
  unfold check at h
  rw [if_neg hany, if_neg (Nat.not_le_of_lt hkind), hfind] at h
  dsimp only at h
  split at h
  next value members =>
    unfold checkStandard at h
    split at h
    next =>
      cases h
      rfl
    next =>
      rw [if_neg (not_not.mpr (hcount value members rfl).symm)] at h
      exact isForeseen_of_checkMembers h
  next =>
    split at h
    next =>
      cases h
      rfl
    next => cases h

end PatternSet

/-- Every name stands for a pattern that is there. -/
def Compiled.Bounded (c : Compiled s) : Prop := ∀ e ∈ c.names, e.2 < c.patterns.size

namespace Compile

variable {α β : Type}

/-- Where there are at least `n` patterns already, the computation comes to a result of which `Q`
holds, with the number of patterns by then, or to one of the errors that validation leaves. -/
def Safe (n : Nat) (x : Compile s α) (Q : Nat → α → Prop) : Prop :=
  ∀ c : Compiled s, n ≤ c.patterns.size → c.Bounded →
    match x c with
    | .ok a c' => c.patterns.size ≤ c'.patterns.size ∧ c'.Bounded ∧ Q c'.patterns.size a
    | .error e _ => e.Remaining

theorem draft_bind (rule : String) (d : Draft s α) (g : α → Draft s β) :
    draft rule (d >>= g) = draft rule d >>= fun a => draft rule (g a) := by
  funext c
  simp only [draft, EStateM.run, Bind.bind, EStateM.bind]
  cases d c.patterns <;> rfl

namespace Safe

variable {n : Nat} {x : Compile s α} {Q : Nat → α → Prop} {R : Nat → β → Prop}

theorem result {c c' : Compiled s} {a : α} (hx : Safe n x Q) (hn : n ≤ c.patterns.size)
    (hc : c.Bounded) (h : x c = .ok a c') :
    c.patterns.size ≤ c'.patterns.size ∧ c'.Bounded ∧ Q c'.patterns.size a := by
  have hresult := hx c hn hc
  rwa [h] at hresult

theorem remaining {c c' : Compiled s} {e : CompileError} (hx : Safe n x Q)
    (hn : n ≤ c.patterns.size) (hc : c.Bounded) (h : x c = .error e c') : e.Remaining := by
  have hresult := hx c hn hc
  rwa [h] at hresult

theorem pure {a : α} (h : ∀ m, n ≤ m → Q m a) : Safe n (pure a : Compile s α) Q :=
  fun _ hn hc => ⟨Nat.le_refl _, hc, h _ hn⟩

theorem throw {e : CompileError} (h : e.Remaining) : Safe n (throw e : Compile s α) Q :=
  fun _ _ _ => h

theorem bind {g : α → Compile s β} (hx : Safe n x Q)
    (hg : ∀ a m, n ≤ m → Q m a → Safe m (g a) R) : Safe n (x >>= g) R := by
  intro c hn hc
  simp only [Bind.bind, EStateM.bind]
  cases hxc : x c with
  | error e c₁ => exact hx.remaining hn hc hxc
  | ok a c₁ =>
    obtain ⟨hsize, hc₁, ha⟩ := hx.result hn hc hxc
    have hnext := hg a _ (Nat.le_trans hn hsize) ha
    dsimp only
    cases hgc : g a c₁ with
    | error e c₂ => exact hnext.remaining (Nat.le_refl _) hc₁ hgc
    | ok b c₂ =>
      obtain ⟨hsize₁, hc₂, hb⟩ := hnext.result (Nat.le_refl _) hc₁ hgc
      exact ⟨Nat.le_trans hsize hsize₁, hc₂, hb⟩

theorem imp {P : Nat → α → Prop} (hx : Safe n x Q) (h : ∀ m a, Q m a → P m a) : Safe n x P := by
  intro c hn hc
  cases hxc : x c with
  | error e c' => exact hx.remaining hn hc hxc
  | ok a c' =>
    obtain ⟨hsize, hc', ha⟩ := hx.result hn hc hxc
    exact ⟨hsize, hc', h _ a ha⟩

theorem get {g : Compiled s → Compile s β}
    (hg : ∀ c : Compiled s, c.Bounded → Safe c.patterns.size (g c) R) : Safe n (get >>= g) R :=
  fun c _ hc => hg c hc c (Nat.le_refl _) hc

/-- To note a name of a pattern that is there. -/
theorem name {name : String} {p : PatternId} (h : p < n) :
    Safe n (modify fun c => { c with names := (name, p) :: c.names } : Compile s PUnit)
      fun _ _ => True :=
  fun _ hn hc => ⟨Nat.le_refl _, List.forall_mem_cons.mpr ⟨Nat.lt_of_lt_of_le h hn, hc⟩, trivial⟩

theorem mapM {g : α → Compile s β} {xs : List α} (hmono : ∀ m m' b, m ≤ m' → R m b → R m' b)
    (h : ∀ a ∈ xs, ∀ n, Safe n (g a) R) (n : Nat) :
    Safe n (xs.mapM g) fun m bs => bs.length = xs.length ∧ ∀ b ∈ bs, R m b := by
  induction xs generalizing n with
  | nil => exact .pure fun _ _ => ⟨rfl, List.forall_mem_nil _⟩
  | cons a xs ih =>
    rw [List.forall_mem_cons] at h
    rw [List.mapM_cons]
    refine (h.1 n).bind fun b m _ hb => (ih h.2 m).bind fun bs m₁ hm₁ hbs => .pure fun m₂ hm₂ => ?_
    refine ⟨by rw [List.length_cons, List.length_cons, hbs.1],
      List.forall_mem_cons.mpr ⟨?_, fun b' hb' => ?_⟩⟩
    · exact hmono _ _ b (Nat.le_trans hm₁ hm₂) hb
    · exact hmono _ _ b' hm₂ (hbs.2 b' hb')

theorem kindOf (hs : s.Built) (rule : String) {kind : Option String}
    (h : ∀ name ∈ kind, s.Knows name) :
    Safe n (kindOf rule kind : Compile s KindId) fun _ k => k < s.size := by
  cases kind with
  | none => exact .pure fun _ _ => hs.size_pos
  | some name =>
    obtain ⟨k, hk⟩ := Option.isSome_iff_exists.mp (h name rfl)
    rw [Compile.kindOf, Schema.kind, hk]
    exact .pure fun _ _ => (hs.indexed.name_of_lookup hk).1

theorem pattern (rule : String) {kind : KindId} {agent : Agent PatternId} (hkind : kind < s.size)
    (hlow : ∀ c ∈ agent.children, c < n) (hany : agent ≠ .matchAny [])
    (hcount : ∀ value members, agent = .standard value members →
      members.length = (s.layout kind).length) :
    Safe n (draft rule (Draft.pattern kind agent) : Compile s PatternId) fun m p => p < m := by
  intro c hn hc
  have hchildren : ∀ q ∈ agent.children, q < c.patterns.size :=
    fun q hq => Nat.lt_of_lt_of_le (hlow q hq) hn
  simp only [draft, EStateM.run, Draft.pattern, PatternSet.insert]
  cases hcheck : c.patterns.check kind agent with
  | error e =>
    exact .pattern rule (PatternSet.isForeseen_of_check hkind hchildren hany hcount hcheck)
  | ok =>
    have hsize : (c.patterns.push ⟨kind, agent⟩).size = c.patterns.size + 1 :=
      PatternSet.size_push hchildren
    dsimp only
    refine ⟨by rw [hsize]; exact Nat.le_succ _, fun e he => ?_,
      by rw [hsize]; exact Nat.lt_succ_self _⟩
    rw [hsize]
    exact Nat.lt_succ_of_lt (hc e he)

theorem wrap (hpos : 0 < s.size) (rule : String) {search : PatternId} {replace : Option PatternId}
    (mode : Mode) (hsearch : search < n) (hreplace : ∀ p ∈ replace, p < n) :
    Safe n (draft rule (Draft.wrap search replace mode) : Compile s PatternId)
      fun m p => p < m := by
  have habove : replace.getD search < n := by
    cases replace with
    | none => exact hsearch
    | some p => exact hreplace p rfl
  rw [Draft.wrap, draft_bind]
  refine (Safe.pattern rule hpos (by simp [Agent.children, hsearch, habove]) (by simp)
    (by simp)).bind fun overlay m _ hoverlay => ?_
  cases mode with
  | compare => exact .pure fun _ hm => Nat.lt_of_lt_of_le hoverlay hm
  | search => exact .pattern rule hpos (by simp [Agent.children, hoverlay]) (by simp) (by simp)

theorem slave (hpos : 0 < s.size) (rule : String) {kind : KindId} {through search : PatternId}
    {replace : Option PatternId} (mode : Mode) (hkind : kind < s.size) (hthrough : through < n)
    (hsearch : search < n) (hreplace : ∀ p ∈ replace, p < n) :
    Safe n (draft rule (Draft.slave kind through search replace mode) : Compile s PatternId)
      fun m p => p < m := by
  rw [Draft.slave, draft_bind]
  refine (Safe.wrap hpos rule mode hsearch hreplace).bind fun root m hm hroot => ?_
  exact .pattern rule hkind (by simp [Agent.children, hroot, Nat.lt_of_lt_of_le hthrough hm])
    (by simp) (by simp)

end Safe

/-- To compile a part is safe, and what it refers to is there afterwards. -/
def Part.Safe : Part s → Prop
  | .one pattern => ∀ n, Compile.Safe n pattern fun m p => p < m
  | .many patterns => ∀ n, Compile.Safe n patterns fun m ps => ∀ p ∈ ps, p < m

theorem safe_members (rule : String) (kind : KindId) {given : List (String × Part s)}
    (h : ∀ e ∈ given, e.2.Safe) (n : Nat) :
    Safe n (members rule kind given) fun m ms =>
      ms.length = (s.layout kind).length ∧ ∀ member ∈ ms, ∀ p ∈ member.children, p < m := by
  rw [members]
  split
  next => exact .throw (.pattern rule rfl)
  next =>
    have hlength : (s.layout kind).zipIdx.length = (s.layout kind).length := List.length_zipIdx
    rw [← hlength]
    refine .mapM (fun m m' member hm hmember p hp => Nat.lt_of_lt_of_le (hmember p hp) hm) ?_ n
    rintro ⟨d, index⟩ - n
    dsimp only
    split
    next => exact .pure fun _ _ => by simp
    next pattern hlookup =>
      have hpattern : ∀ n, Compile.Safe n pattern fun m p => p < m := h _ (mem_of_lookup hlookup)
      split
      · exact (hpattern n).bind fun p m _ hp => .pure fun m' hm => by
          simpa [Member.children] using Nat.lt_of_lt_of_le hp hm
      · exact .throw (.pattern rule rfl)
    next patterns hlookup =>
      have hpatterns : ∀ n, Compile.Safe n patterns fun m ps => ∀ p ∈ ps, p < m :=
        h _ (mem_of_lookup hlookup)
      split
      · exact .throw (.pattern rule rfl)
      · exact (hpatterns n).bind fun ps m _ hps => .pure fun m' hm p hp =>
          Nat.lt_of_lt_of_le (hps p hp) hm
      · exact (hpatterns n).bind fun ps m _ hps => .pure fun m' hm p hp =>
          Nat.lt_of_lt_of_le (hps p hp) hm

/-- The kinds that are known are kinds of the schema, and the names that are defined can be
resolved. -/
structure Resolves (known defined : List String) (resolve : String → Compile s PatternId) :
    Prop where
  built : s.Built
  knows : ∀ name ∈ known, s.Knows name
  safe : ∀ name ∈ defined, ∀ n, Safe n (resolve name) fun m p => p < m

theorem Resolves.kindOf {known defined : List String} {resolve : String → Compile s PatternId}
    (h : Resolves known defined resolve) (rule : String) {kind : Option String}
    (hkind : ∀ name ∈ kind, name ∈ known) (n : Nat) :
    Safe n (Compile.kindOf rule kind : Compile s KindId) fun _ k => k < s.size :=
  .kindOf h.built rule fun name hname => h.knows name (hkind name hname)

mutual

theorem safe_pattern (rule : String) {known defined : List String}
    {resolve : String → Compile s PatternId} (hresolve : Resolves known defined resolve) :
    (p : PatternSpec) → (∀ q ∈ p.parts, q.Valid known defined) →
      ∀ n, Safe n (pattern rule resolve p) fun m p => p < m
  | .mk (some name) kind agent, hvalid, n => by
    rw [PatternSpec.parts, List.forall_mem_cons] at hvalid
    rw [pattern]
    exact hresolve.safe name (hvalid.1.name_mem name rfl) n
  | .mk none kind agent, hvalid, n => by
    rw [PatternSpec.parts, List.forall_mem_cons] at hvalid
    rw [pattern]
    refine safe_define rule hresolve agent hvalid.1.kind_mem hvalid.1.disjunct
      (fun href => ?_) hvalid.2 n
    exact absurd (hvalid.1.named (by rw [PatternSpec.isRef, PatternSpec.agent, href]))
      (by simp [PatternSpec.name])

theorem safe_define (rule : String) {known defined : List String}
    {resolve : String → Compile s PatternId} (hresolve : Resolves known defined resolve)
    {kind : Option String} :
    (agent : AgentSpec) → (∀ name ∈ kind, name ∈ known) → agent ≠ .matchAny [] → agent ≠ .ref →
      (∀ q ∈ agent.parts, q.Valid known defined) →
      ∀ n, Safe n (define rule resolve kind agent) fun m p => p < m
  | .standard value given, hkind, _, _, hvalid, n => by
    rw [AgentSpec.parts] at hvalid
    rw [define]
    refine (hresolve.kindOf rule hkind n).bind fun k m _ hk => ?_
    refine (safe_members rule k (safe_parts rule hresolve given hvalid) m).bind
      fun ms m₁ _ hms => ?_
    refine .pattern rule hk (fun p hp => ?_) (by simp) ?_
    · obtain ⟨member, hmember, hp⟩ := List.mem_flatMap.mp hp
      exact hms.2 member hmember p hp
    · rintro _ _ ⟨⟩
      exact hms.1
  | .star restriction, hkind, _, _, hvalid, n => by
    rw [AgentSpec.parts] at hvalid
    rw [define]
    refine (hresolve.kindOf rule hkind n).bind fun k m _ hk => ?_
    refine (safe_option rule hresolve restriction hvalid m).bind fun r m₁ _ hr => ?_
    exact .pattern rule hk (by simpa [Agent.children] using hr) (by simp) (by simp)
  | .stuff terminus restriction, hkind, _, _, hvalid, n => by
    rw [AgentSpec.parts, List.forall_mem_append] at hvalid
    rw [define]
    refine (hresolve.kindOf rule hkind n).bind fun k m _ hk => ?_
    refine (safe_pattern rule hresolve terminus hvalid.1 m).bind fun t m₁ _ ht => ?_
    refine (safe_option rule hresolve restriction hvalid.2 m₁).bind fun r m₂ hm₂ hr => ?_
    refine .pattern rule hk (List.forall_mem_cons.mpr ⟨Nat.lt_of_lt_of_le ht hm₂, ?_⟩)
      (by simp) (by simp)
    simpa using hr
  | .anyNode terminus, hkind, _, _, hvalid, n => by
    rw [AgentSpec.parts] at hvalid
    rw [define]
    refine (hresolve.kindOf rule hkind n).bind fun k m _ hk => ?_
    refine (safe_pattern rule hresolve terminus hvalid m).bind fun t m₁ _ ht => ?_
    exact .pattern rule hk (by simpa [Agent.children] using ht) (by simp) (by simp)
  | .overlay through above, hkind, _, _, hvalid, n => by
    rw [AgentSpec.parts, List.forall_mem_append] at hvalid
    rw [define]
    refine (hresolve.kindOf rule hkind n).bind fun k m _ hk => ?_
    refine (safe_pattern rule hresolve through hvalid.1 m).bind fun t m₁ _ ht => ?_
    refine (safe_pattern rule hresolve above hvalid.2 m₁).bind fun a m₂ hm₂ ha => ?_
    exact .pattern rule hk (by simp [Agent.children, ha, Nat.lt_of_lt_of_le ht hm₂])
      (by simp) (by simp)
  | .notMatch p, hkind, _, _, hvalid, n => by
    rw [AgentSpec.parts] at hvalid
    rw [define]
    refine (hresolve.kindOf rule hkind n).bind fun k m _ hk => ?_
    refine (safe_pattern rule hresolve p hvalid m).bind fun q m₁ _ hq => ?_
    exact .pattern rule hk (by simpa [Agent.children] using hq) (by simp) (by simp)
  | .matchAll ps, hkind, _, _, hvalid, n => by
    rw [AgentSpec.parts] at hvalid
    rw [define]
    refine (hresolve.kindOf rule hkind n).bind fun k m _ hk => ?_
    refine (safe_list rule hresolve ps hvalid m).bind fun qs m₁ _ hqs => ?_
    exact .pattern rule hk hqs.2 (by simp) (by simp)
  | .matchAny ps, hkind, hany, _, hvalid, n => by
    rw [AgentSpec.parts] at hvalid
    rw [define]
    refine (hresolve.kindOf rule hkind n).bind fun k m _ hk => ?_
    refine (safe_list rule hresolve ps hvalid m).bind fun qs m₁ _ hqs => ?_
    refine .pattern rule hk hqs.2 (fun hnil => hany ?_) (by simp)
    rw [Agent.matchAny.injEq] at hnil
    rw [hnil] at hqs
    rw [List.eq_nil_of_length_eq_zero hqs.1.symm]
  | .greenGrass through, hkind, _, _, hvalid, n => by
    rw [AgentSpec.parts] at hvalid
    rw [define]
    refine (hresolve.kindOf rule hkind n).bind fun k m _ hk => ?_
    refine (safe_pattern rule hresolve through hvalid m).bind fun t m₁ _ ht => ?_
    exact .pattern rule hk (by simpa [Agent.children] using ht) (by simp) (by simp)
  | .slave through search replace mode, hkind, _, _, hvalid, n => by
    rw [AgentSpec.parts, List.forall_mem_append, List.forall_mem_append] at hvalid
    rw [define]
    refine (hresolve.kindOf rule hkind n).bind fun k m _ hk => ?_
    refine (safe_pattern rule hresolve through hvalid.1.1 m).bind fun t m₁ _ ht => ?_
    refine (safe_pattern rule hresolve search hvalid.1.2 m₁).bind fun q m₂ hm₂ hq => ?_
    refine (safe_option rule hresolve replace hvalid.2 m₂).bind fun r m₃ hm₃ hr => ?_
    exact .slave hresolve.built.size_pos rule mode hk (Nat.lt_of_lt_of_le ht (Nat.le_trans hm₂ hm₃))
      (Nat.lt_of_lt_of_le hq hm₃) hr
  | .ref, _, _, href, _, _ => absurd rfl href

theorem safe_option (rule : String) {known defined : List String}
    {resolve : String → Compile s PatternId} (hresolve : Resolves known defined resolve) :
    (p : Option PatternSpec) → (∀ q ∈ optionParts p, q.Valid known defined) →
      ∀ n, Safe n (option rule resolve p) fun m o => ∀ p ∈ o, p < m
  | none, _, n => by
    rw [option]
    exact .pure fun _ _ => by simp
  | some p, hvalid, n => by
    rw [optionParts] at hvalid
    rw [option]
    refine (safe_pattern rule hresolve p hvalid n).bind fun q m _ hq => .pure fun m' hm => ?_
    simpa using Nat.lt_of_lt_of_le hq hm

theorem safe_list (rule : String) {known defined : List String}
    {resolve : String → Compile s PatternId} (hresolve : Resolves known defined resolve) :
    (ps : List PatternSpec) → (∀ q ∈ listParts ps, q.Valid known defined) →
      ∀ n, Safe n (list rule resolve ps) fun m qs => qs.length = ps.length ∧ ∀ q ∈ qs, q < m
  | [], _, n => by
    rw [list]
    exact .pure fun _ _ => ⟨rfl, List.forall_mem_nil _⟩
  | p :: ps, hvalid, n => by
    rw [listParts, List.forall_mem_append] at hvalid
    rw [list]
    refine (safe_pattern rule hresolve p hvalid.1 n).bind fun q m _ hq => ?_
    refine (safe_list rule hresolve ps hvalid.2 m).bind fun qs m₁ hm₁ hqs => .pure fun m₂ hm₂ => ?_
    refine ⟨by rw [List.length_cons, List.length_cons, hqs.1],
      List.forall_mem_cons.mpr ⟨?_, fun q' hq' => ?_⟩⟩
    · exact Nat.lt_of_lt_of_le hq (Nat.le_trans hm₁ hm₂)
    · exact Nat.lt_of_lt_of_le (hqs.2 q' hq') hm₂

theorem safe_parts (rule : String) {known defined : List String}
    {resolve : String → Compile s PatternId} (hresolve : Resolves known defined resolve) :
    (ms : List (String × MemberPattern)) → (∀ q ∈ membersParts ms, q.Valid known defined) →
      ∀ e ∈ parts rule resolve ms, e.2.Safe
  | [], _ => by
    rw [parts]
    exact List.forall_mem_nil _
  | (name, m) :: ms, hvalid => by
    rw [membersParts, List.forall_mem_append] at hvalid
    rw [parts]
    exact List.forall_mem_cons.mpr
      ⟨safe_part rule hresolve m hvalid.1, safe_parts rule hresolve ms hvalid.2⟩

theorem safe_part (rule : String) {known defined : List String}
    {resolve : String → Compile s PatternId} (hresolve : Resolves known defined resolve) :
    (m : MemberPattern) → (∀ q ∈ m.parts, q.Valid known defined) → (part rule resolve m).Safe
  | .one p, hvalid => by
    rw [MemberPattern.parts] at hvalid
    rw [part]
    exact safe_pattern rule hresolve p hvalid
  | .many ps, hvalid => by
    rw [MemberPattern.parts] at hvalid
    rw [part]
    exact fun n => (safe_list rule hresolve ps hvalid n).imp fun m qs hqs => hqs.2

end

/-- A name that the rule defines can be resolved wherever it is met, unless it is met in its own
definition. -/
theorem safe_named {known : List String} {r : RuleSpec} (hs : s.Built)
    (hknows : ∀ name ∈ known, s.Knows name)
    (hvalid : ∀ p ∈ r.patterns, p.Valid known (r.definitions.map Prod.fst)) (left : Nat)
    (building : List String) {name : String} (hname : name ∈ r.definitions.map Prod.fst) (n : Nat) :
    Safe n (named r.id r.definitions left building name : Compile s PatternId)
      fun m p => p < m := by
  induction left generalizing building name n with
  | zero =>
    obtain ⟨⟨_, kind, agent⟩, -, hdef, -⟩ := RuleSpec.exists_definition hname
    rw [named]
    refine .get fun c hc => ?_
    split
    next id hid => exact .pure fun m hm => Nat.lt_of_lt_of_le (hc _ (mem_of_lookup hid)) hm
    next =>
      rw [hdef]
      dsimp only
      split
      · exact .throw (.cycle ..)
      · exact .throw (.cycle ..)
  | succ left ih =>
    obtain ⟨⟨_, kind, agent⟩, hmem, hdef, href⟩ := RuleSpec.exists_definition hname
    rw [named]
    refine .get fun c hc => ?_
    split
    next id hid => exact .pure fun m hm => Nat.lt_of_lt_of_le (hc _ (mem_of_lookup hid)) hm
    next =>
      rw [hdef]
      dsimp only
      split
      · exact .throw (.cycle ..)
      · -- A definition is made of patterns of the rule, so that its names can be resolved, too.
        have hself := hvalid _ hmem
        have hparts : ∀ q ∈ agent.parts, q ∈ r.patterns := fun q hq =>
          r.closed_patterns _ hmem (by rw [PatternSpec.parts]; exact List.mem_cons_of_mem _ hq)
        have hresolve : Resolves known (r.definitions.map Prod.fst)
            (named r.id r.definitions left (name :: building)) :=
          ⟨hs, hknows, fun _ hname' => ih (name :: building) hname'⟩
        refine (safe_define r.id hresolve agent hself.kind_mem hself.disjunct ?_
          (fun q hq => hvalid q (hparts q hq)) _).bind fun id m _ hid => ?_
        · rintro rfl
          simp [PatternSpec.isRef, PatternSpec.agent] at href
        · exact (Safe.name hid).bind fun _ m' hm _ =>
            .pure fun _ hm' => Nat.lt_of_lt_of_le hid (Nat.le_trans hm hm')

end Compile

/-! ## Rule files -/

theorem RuleSpec.remaining_of_compile {info : Metadata} {r : RuleSpec} {known : List String}
    {e : CompileError} (hs : s.Built) (hknows : ∀ name ∈ known, s.Knows name)
    (hcheck : r.checkPatterns known = []) (h : r.compile info s = .error e) : e.Remaining := by
  have hvalid := r.valid_of_checkPatterns hcheck
  have hresolve : Compile.Resolves (s := s) known (r.definitions.map Prod.fst)
      (Compile.named r.id r.definitions r.definitions.length []) :=
    ⟨hs, hknows, fun name hname => Compile.safe_named hs hknows hvalid _ _ hname⟩
  rw [RuleSpec.patterns, List.forall_mem_append] at hvalid
  have hsafe := (Compile.safe_pattern r.id hresolve r.search hvalid.1 0).bind fun p m _ hp =>
    (Compile.safe_option r.id hresolve r.replace hvalid.2 m).bind fun q m₁ hm₁ hq =>
      .pure (a := (p, q)) (Q := fun m a => a.1 < m ∧ ∀ q ∈ a.2, q < m) fun m₂ hm₂ =>
        ⟨Nat.lt_of_lt_of_le hp (Nat.le_trans hm₁ hm₂), fun q' hq' =>
          Nat.lt_of_lt_of_le (hq q' hq') hm₂⟩
  have hempty : (⟨.empty, []⟩ : Compiled s).Bounded := List.forall_mem_nil _
  unfold RuleSpec.compile at h
  dsimp only at h
  split at h
  next e' compiled hrun =>
    cases h
    exact hsafe.remaining (Nat.zero_le _) hempty hrun
  next search replace compiled hrun =>
    obtain ⟨-, hbounded, hsearch, hreplace⟩ := hsafe.result (Nat.zero_le _) hempty hrun
    split at h
    next e' hmake =>
      cases h
      have hwrap := Compile.Safe.wrap hs.size_pos r.id r.mode hsearch hreplace
      unfold Rule.make at hmake
      split at hmake
      next _ ps herror =>
        cases hmake
        have hdraft : Compile.draft r.id (Draft.wrap search replace r.mode) compiled =
            .error (.pattern r.id e') ⟨ps, compiled.names⟩ := by rw [Compile.draft, herror]
        exact hwrap.remaining (Nat.le_refl _) hbounded hdraft
      next => cases hmake
    next => cases h

theorem exists_of_mapM_eq_error {ε α β : Type} {g : α → Except ε β} {xs : List α} {e : ε}
    (h : xs.mapM g = .error e) : ∃ x ∈ xs, g x = .error e := by
  induction xs with
  | nil => cases h
  | cons x xs ih =>
    rw [List.mapM_cons] at h
    cases hx : g x with
    | error e' =>
      rw [hx] at h
      cases h
      exact ⟨x, List.mem_cons_self, hx⟩
    | ok y =>
      rw [hx] at h
      cases hxs : xs.mapM g with
      | error e' =>
        rw [hxs] at h
        cases h
        obtain ⟨x', hx', hgx'⟩ := ih hxs
        exact ⟨x', List.mem_cons_of_mem _ hx', hgx'⟩
      | ok ys =>
        rw [hxs] at h
        cases h

namespace RuleFile

/-- The kinds of a valid file can be defined one after the other, but for what they say of
members. -/
theorem awaits_of_checkKinds {kinds : List KindSpec}
    (h : checkKinds ("Node" :: kinds.map (·.name)) [] kinds = []) : Schema.base.Awaits kinds := by
  obtain ⟨hdistinct, hkinds⟩ := of_checkKinds h
  refine ⟨hdistinct, fun k hk hknown => (hkinds k hk).2.1 (Schema.knows_base.mp hknown), ?_⟩
  intro k hk name hname
  exact (List.mem_cons.mp ((hkinds k hk).2.2 name hname)).imp_left Schema.knows_base.mpr

/-- A rule file without an issue is compiled without any of the foreseen errors, and without an
unknown kind unless its kinds descend from each other in a circle. -/
theorem isForeseen_of_compile {file : RuleFile} {e : CompileError} (hvalid : file.issues = [])
    (h : file.compile = .error e) :
    e.isForeseen = false ∧ ∀ kind name, e = .kind kind (.unknownKind name) →
      KindSpec.Cyclic file.kinds := by
  obtain ⟨⟨-, hkinds⟩, hrules⟩ := by simpa only [issues, List.append_eq_nil_iff] using hvalid
  rw [compile] at h
  cases hschema : Schema.ofKinds file.kinds with
  | error e' =>
    rw [hschema] at h
    cases h
    obtain ⟨kind, member, rfl⟩ | ⟨⟨kind, name, rfl⟩, hcyclic⟩ :=
      Schema.error_of_defineAll .base (awaits_of_checkKinds hkinds) hschema
    · exact ⟨rfl, by simp⟩
    · exact ⟨rfl, fun _ _ _ => hcyclic⟩
  | ok schema =>
    rw [hschema] at h
    cases hmap : file.rules.mapM (·.compile file.info schema) with
    | ok rules =>
      simp only [Bind.bind, Except.bind, hmap] at h
      cases h
    | error e' =>
      simp only [Bind.bind, Except.bind, hmap] at h
      cases h
      obtain ⟨r, hr, herror⟩ := exists_of_mapM_eq_error hmap
      obtain ⟨hbase, hknown⟩ := Schema.knows_of_defineAll hschema
      have hknows : ∀ name ∈ "Node" :: file.kinds.map (·.name), schema.Knows name :=
        List.forall_mem_cons.mpr ⟨hbase _ (Schema.knows_base.mpr rfl),
          List.forall_mem_map.mpr hknown⟩
      have hremaining := r.remaining_of_compile (Schema.Built.base.defineAll hschema) hknows
        (checkPatterns_of_checkRules hrules r hr) herror
      cases hremaining with
      | cycle => exact ⟨rfl, by simp⟩
      | pattern rule hforeseen => exact ⟨hforeseen, by simp⟩

/-- Two kinds that descend from each other, one that is defined in spite of them, and a rule for
it. -/
def eachOther : RuleFile where
  info := { name := "each other", description := none, maxRepetitions := 1, strict := true }
  kinds := [
    { name := "Hen", parent := some "Egg", members := [], valued := false },
    { name := "Nest", parent := none, members := [], valued := false },
    { name := "Egg", parent := some "Hen", members := [], valued := false }]
  rules := [{
    id := "keep"
    description := none
    mode := .search
    search := .mk (some "nest") (some "Nest") (.standard none [])
    replace := some (.mk (some "nest") none .ref)
    maxRepetitions := none }]

theorem isForeseen_of_compile_eachOther :
    eachOther.issues = [] ∧ eachOther.compile = .error (.kind "Hen" (.unknownKind "Egg")) ∧
      KindSpec.Cyclic eachOther.kinds := by
  have hvalid : eachOther.issues = [] := by decide +kernel
  have hkinds : Schema.ofKinds eachOther.kinds = .error (.kind "Hen" (.unknownKind "Egg")) := by
    decide +kernel
  have hcompile : eachOther.compile = .error (.kind "Hen" (.unknownKind "Egg")) := by
    rw [compile, hkinds]
    rfl
  exact ⟨hvalid, hcompile, (isForeseen_of_compile hvalid hcompile).2 "Hen" "Egg" rfl⟩

end RuleFile

end Espalier
