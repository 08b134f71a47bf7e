import Espalier.Proofs.Laying

/-!
# Which patterns share a node

The patterns that are written in a rule become nodes that refer to each other as they are written.
Which node a pattern becomes can be read off the compiled rule, and two patterns are the same node
only if they have the same name, which is how a replacement is coupled with what was found.
-/

namespace Espalier

variable {s : Schema}

/-! ## Reading nodes off -/

/-- Every pattern of a rule is laid out as it is written, where `ids` are the nodes of the places.
A reference is the node that the pattern around it refers to. -/
structure RuleSpec.Lays (r : RuleSpec) (ps : PatternSet s) (search : PatternId)
    (replace : Option PatternId) (ids : Place → PatternId) : Prop where
  search_eq : search = ids [.search]
  replace_eq : replace = r.replace.map fun _ => ids [.replace]
  node : ∀ place p, r.patternAt place = some p → p.isRef = false →
    ∃ kind agent, ps.nodes[ids place]? = some ⟨kind, agent⟩ ∧ s.IsKind p.kind kind ∧
      p.agent.Laid ps kind (fun step => ids (place ++ [step])) agent

theorem Member.children_holding {α : Type} {children : List α} {category : Category}
    (h : category = .single → children.length ≤ 1) :
    (Member.holding children category).children = children := by
  cases category with
  | single =>
    cases children with
    | nil => rfl
    | cons a children =>
      obtain rfl : children = [] := by simpa using h rfl
      rfl
  | sequence => rfl
  | collection => rfl

theorem MemberPattern.length_items_of_suits {m : MemberPattern} (h : m.suits .single = true) :
    m.items.length ≤ 1 := by
  cases m with
  | one p => exact Nat.le_refl 1
  | many ps => cases h

/-- A member for which patterns are given is declared, and takes as many nodes. -/
theorem exists_decl_of_itemsFor {kind : KindId} {given : List (String × MemberPattern)}
    (h : ∀ e ∈ given, ∃ d ∈ s.layout kind, d.name = e.1 ∧ e.2.suits d.category = true)
    {name : String} {i : Nat} {q : PatternSpec} (hq : (itemsFor given name)[i]? = some q) :
    ∃ d ∈ s.layout kind, d.name = name ∧ ∀ ids : List PatternId,
      ids.length = (itemsFor given name).length →
      (Member.holding ids d.category).children = ids := by
  obtain ⟨m, hm, -⟩ := exists_lookup_of_itemsFor hq
  obtain ⟨d, hd, hname, hsuits⟩ := h _ (mem_of_lookup hm)
  refine ⟨d, hd, hname, fun ids hids => Member.children_holding fun hsingle => ?_⟩
  rw [hids, itemsFor_of_lookup hm]
  exact MemberPattern.length_items_of_suits (hsingle ▸ hsuits)

theorem PatternSet.IsRoot.unique {ps : PatternSet s} {search search' : PatternId}
    {replace replace' : Option PatternId} {mode : Mode} {root : PatternId}
    (h : ps.IsRoot search replace mode root) (h' : ps.IsRoot search' replace' mode root) :
    search = search' ∧ replace.getD search = replace'.getD search' := by
  cases mode with
  | compare => simpa using h.symm.trans h'
  | search =>
    obtain ⟨overlay, hroot, hoverlay⟩ := h
    obtain ⟨overlay', hroot', hoverlay'⟩ := h'
    obtain rfl : overlay = overlay' := by simpa using hroot.symm.trans hroot'
    simpa using hoverlay.symm.trans hoverlay'

theorem eq_of_mapIdx_eq {α : Type} {xs : List α} {g g' : Nat → PatternId} {i : Nat} {a : α}
    (h : xs.mapIdx (fun i _ => g i) = xs.mapIdx fun i _ => g' i) (ha : xs[i]? = some a) :
    g i = g' i := by
  have hi := congrArg (·[i]?) h
  simpa [List.getElem?_mapIdx, ha] using hi

/-- An agent tells which nodes the patterns inside are. -/
theorem AgentSpec.Laid.unique {ps : PatternSet s} {kind : KindId} {ids ids' : Step → PatternId}
    {spec : AgentSpec} {agent : Agent PatternId} (h : spec.Laid ps kind ids agent)
    (h' : spec.Laid ps kind ids' agent) {step : Step} {q : PatternSpec}
    (hq : spec.child step = some q) : ids step = ids' step := by
  cases spec with
  | standard value given =>
    cases step with
    | member name i =>
      obtain ⟨d, hd, rfl, hholding⟩ := exists_decl_of_itemsFor h.2 hq
      have hmembers := (Agent.standard.inj (h.1.symm.trans h'.1)).2
      have hchildren := congrArg Member.children (List.map_inj_left.mp hmembers d hd)
      rw [hholding _ List.length_mapIdx, hholding _ List.length_mapIdx] at hchildren
      exact eq_of_mapIdx_eq hchildren hq
    | _ => cases hq
  | matchAll ps =>
    cases step with
    | item i => exact eq_of_mapIdx_eq (Agent.matchAll.inj (h.symm.trans h')) hq
    | _ => cases hq
  | matchAny ps =>
    cases step with
    | item i => exact eq_of_mapIdx_eq (Agent.matchAny.inj (h.symm.trans h')) hq
    | _ => cases hq
  | slave through search replace mode =>
    obtain ⟨root, rfl, hroot⟩ := h
    obtain ⟨root', heq, hroot'⟩ := h'
    obtain ⟨hthrough, rfl⟩ := Agent.slave.inj heq
    obtain ⟨hsearch, hreplace⟩ := hroot.unique hroot'
    cases step <;> cases hq
    · exact hthrough
    · exact hsearch
    · exact hreplace
  | ref => exact h.elim
  | star restriction =>
    cases step <;> cases hq
    exact Option.some.inj (Agent.star.inj (h.symm.trans h'))
  | stuff terminus restriction =>
    obtain ⟨hterminus, hrestriction⟩ := Agent.stuff.inj (h.symm.trans h')
    cases step <;> cases hq
    · exact Option.some.inj hrestriction
    · exact hterminus
  | anyNode terminus =>
    cases step <;> cases hq
    exact Agent.anyNode.inj (h.symm.trans h')
  | overlay through above =>
    obtain ⟨hthrough, habove⟩ := Agent.overlay.inj (h.symm.trans h')
    cases step <;> cases hq
    · exact hthrough
    · exact habove
  | notMatch p =>
    cases step <;> cases hq
    exact Agent.notMatch.inj (h.symm.trans h')
  | greenGrass through =>
    cases step <;> cases hq
    exact Agent.greenGrass.inj (h.symm.trans h')

namespace RuleSpec

variable {r : RuleSpec} {ps ps' : PatternSet s} {search : PatternId} {replace : Option PatternId}
  {ids ids' : Place → PatternId} {place : Place} {p : PatternSpec}

/-- The nodes of the places can be read off in one way. -/
theorem Lays.unique (h : r.Lays ps search replace ids) (h' : r.Lays ps search replace ids') :
    ∀ place p, r.patternAt place = some p → ids place = ids' place := by
  refine r.patternAt_induction (h.search_eq.symm.trans h'.search_eq) (fun p hp => ?_) ?_
  · have heq := h.replace_eq.symm.trans h'.replace_eq
    rw [hp] at heq
    exact Option.some.inj heq
  · intro place parent step p hparent href hchild heq
    obtain ⟨kind, agent, hnode, -, hlaid⟩ := h.node place parent hparent href
    obtain ⟨kind', agent', hnode', -, hlaid'⟩ := h'.node place parent hparent href
    obtain ⟨rfl, rfl⟩ : kind = kind' ∧ agent = agent' := by
      rw [heq, hnode'] at hnode
      simpa [eq_comm] using hnode
    exact hlaid.unique hlaid' hchild

theorem Lays.mono (h : r.Lays ps search replace ids) (hps : ps.Within ps') :
    r.Lays ps' search replace ids where
  search_eq := h.search_eq
  replace_eq := h.replace_eq
  node place p hat href := by
    obtain ⟨kind, agent, hnode, hkind, hlaid⟩ := h.node place p hat href
    exact ⟨kind, agent, hps _ _ hnode, hkind, hlaid.mono hps⟩

end RuleSpec

/-! ## Nodes along a trail -/

/-- The node that some steps lead to, where `next` are the nodes that a node leads to. -/
def Place.follow (next : PatternId → Step → PatternId) (search replace : PatternId) :
    Place → PatternId
  | .search :: path => path.foldl next search
  | .replace :: path => path.foldl next replace
  | _ => 0

theorem Place.follow_append {r : RuleSpec} {place : Place} {p : PatternSpec}
    (h : r.patternAt place = some p) (next : PatternId → Step → PatternId)
    (search replace : PatternId) (step : Step) :
    Place.follow next search replace (place ++ [step]) =
      next (Place.follow next search replace place) step := by
  unfold RuleSpec.patternAt at h
  split at h
  next path => exact List.foldl_concat ..
  next path => exact List.foldl_concat ..
  next => cases h

namespace Trail

variable {r : RuleSpec} {t : Trail s} {place place' : Place} {p p' : PatternSpec} {id : PatternId}

/-- A pattern that is no reference is the node that stands for its place. -/
theorem Sound.origin_of_stands (h : t.Sound r) (honce : r.DefinesOnce)
    (hat : r.patternAt place = some p) (href : p.isRef = false) (hp : t.Stands place p id) :
    t.origin id = some place := by
  unfold Stands at hp
  split at hp
  next name hname =>
    obtain ⟨place', p', horigin, hat', hp'⟩ := h.named name id hp
    have hdefines := PatternSpec.defines_iff.mpr ⟨href, hname⟩
    rwa [honce.place_unique hat hdefines hat' hp']
  next => exact hp

/-- The nodes of a sound trail. -/
theorem Sound.exists_lays (h : t.Sound r) (honce : r.DefinesOnce) {search : PatternId}
    {replace : Option PatternId} (hsearch : t.Stands [.search] r.search search)
    (hreplace : replace = r.replace.map (fun _ => replace.getD 0))
    (hstands : ∀ p, r.replace = some p → t.Stands [.replace] p (replace.getD 0)) :
    ∃ ids, r.Lays t.compiled.patterns search replace ids ∧
      ∀ place p, r.patternAt place = some p → t.Stands place p (ids place) := by
  have hnext : ∀ id, ∃ next, ∀ place, t.origin id = some place → t.Formed r place id next := by
    intro id
    cases horigin : t.origin id with
    | none => exact ⟨fun _ => 0, by simp⟩
    | some place =>
      obtain ⟨next, hformed⟩ := h.formed id place horigin
      refine ⟨next, ?_⟩
      rintro _ ⟨⟩
      exact hformed
  choose next hnext using hnext
  have hids : ∀ place p, r.patternAt place = some p →
      t.Stands place p (Place.follow next search (replace.getD 0) place) := by
    refine r.patternAt_induction hsearch hstands ?_
    intro place parent step p hparent href hchild hstands
    obtain ⟨p', kind, agent, hp', -, -, -, hchildren⟩ :=
      hnext _ place (h.origin_of_stands honce hparent href hstands)
    obtain rfl := Option.some.inj (hparent.symm.trans hp')
    rw [Place.follow_append hparent]
    exact hchildren step p hchild
  refine ⟨_, ⟨rfl, hreplace, fun place p hat href => ?_⟩, hids⟩
  obtain ⟨p', kind, agent, hp', hnode, hkind, hlaid, -⟩ :=
    hnext _ place (h.origin_of_stands honce hat href (hids place p hat))
  obtain rfl := Option.some.inj (hat.symm.trans hp')
  refine ⟨kind, agent, hnode, hkind, ?_⟩
  simpa only [Place.follow_append hat] using hlaid

/-- A node stands for a place: that of the pattern, or one at which the pattern has its name
from. -/
theorem Sound.exists_origin (h : t.Sound r) (hat : r.patternAt place = some p)
    (hp : t.Stands place p id) :
    ∃ place₀ p₀, t.origin id = some place₀ ∧ r.patternAt place₀ = some p₀ ∧
      (place = place₀ ∨ ∃ name, p.name = some name ∧ p₀.name = some name) := by
  unfold Stands at hp
  split at hp
  next name hname =>
    obtain ⟨place₀, p₀, horigin, hat₀, hp₀⟩ := h.named name id hp
    exact ⟨place₀, p₀, horigin, hat₀, .inr ⟨name, hname, (PatternSpec.defines_iff.mp hp₀).2⟩⟩
  next => exact ⟨place, p, hp, hat, .inl rfl⟩

/-- Patterns share a node if they are one pattern or have one name. -/
theorem Sound.eq_iff (h : t.Sound r) {ids : Place → PatternId}
    (hids : ∀ place p, r.patternAt place = some p → t.Stands place p (ids place))
    (hat : r.patternAt place = some p) (hat' : r.patternAt place' = some p') :
    ids place = ids place' ↔ place = place' ∨ ∃ name, p.name = some name ∧ p'.name = some name := by
  constructor
  · intro heq
    obtain ⟨place₀, p₀, horigin, hat₀, hp⟩ := h.exists_origin hat (hids place p hat)
    obtain ⟨place₁, p₁, horigin', hat₁, hp'⟩ := h.exists_origin hat' (hids place' p' hat')
    rw [heq, horigin'] at horigin
    obtain rfl := Option.some.inj horigin
    obtain rfl := Option.some.inj (hat₁.symm.trans hat₀)
    rcases hp with rfl | ⟨name, hname, hname₀⟩
    · obtain rfl := Option.some.inj (hat.symm.trans hat₁)
      rcases hp' with rfl | ⟨name, hname, hname₀⟩
      · exact .inl rfl
      · exact .inr ⟨name, hname₀, hname⟩
    · rcases hp' with rfl | ⟨name', hname', hname₁⟩
      · obtain rfl := Option.some.inj (hat'.symm.trans hat₁)
        exact .inr ⟨name, hname, hname₀⟩
      · obtain rfl := Option.some.inj (hname₀.symm.trans hname₁)
        exact .inr ⟨name, hname, hname'⟩
  · rintro (rfl | ⟨name, hname, hname'⟩)
    · rfl
    · have hp := hids place p hat
      have hp' := hids place' p' hat'
      rw [Stands, hname] at hp
      rw [Stands, hname'] at hp'
      exact Option.some.inj (hp.symm.trans hp')

end Trail

/-! ## Rules of a file -/

theorem PatternSet.within_of_wrap {ps ps' : PatternSet s} {search root : PatternId}
    {replace : Option PatternId} {mode : Mode}
    (h : (Draft.wrap search replace mode).run ps = .ok root ps') : ps.Within ps' := by
  rw [wrap_run] at h
  split at h
  next overlay ps₁ hoverlay =>
    obtain ⟨-, -, rfl, -⟩ := eq_push_of_draft hoverlay
    cases mode with
    | compare =>
      cases h
      exact fun _ _ => getElem?_push_of_eq_some
    | search =>
      obtain ⟨-, -, rfl, -⟩ := eq_push_of_draft h
      exact fun _ _ hn => getElem?_push_of_eq_some (getElem?_push_of_eq_some hn)
  next => cases h

theorem RuleSpec.exists_drafted_of_compile {info : Metadata} {r : RuleSpec} {rule : LimitedRule s}
    (h : r.compile info s = .ok rule) :
    ∃ c, r.drafted s = .ok (rule.rule.search, rule.rule.replace) c ∧
      c.patterns.Within rule.rule.patterns := by
  rw [compile_eq_finish] at h
  unfold finish at h
  split at h
  next => cases h
  next search replace c hrun =>
    split at h
    next => cases h
    next made hmake =>
      cases h
      unfold Rule.make at hmake
      split at hmake
      next => cases hmake
      next root patterns hwrap =>
        cases hmake
        exact ⟨c, hrun, PatternSet.within_of_wrap hwrap⟩

namespace RuleFile

/-- The patterns of a rule of a valid file are compiled to nodes as they are written, and two of
them are one node only if they have one name. -/
theorem lays_of_compile {file : RuleFile} {r : RuleSpec} {rule : LimitedRule s}
    (hvalid : file.issues = []) (hr : r ∈ file.rules) (hsorted : r.Sorted)
    (hschema : Schema.ofKinds file.kinds = .ok s) (h : r.compile file.info s = .ok rule) :
    (∃ ids, r.Lays rule.rule.patterns rule.rule.search rule.rule.replace ids) ∧
    ∀ ids, r.Lays rule.rule.patterns rule.rule.search rule.rule.replace ids →
      ∀ place place' p p', r.patternAt place = some p → r.patternAt place' = some p' →
        (ids place = ids place' ↔ place = place' ∨ ∃ name,
          p.name = some name ∧ p'.name = some name) := by
  obtain ⟨-, hrules⟩ := List.append_eq_nil_iff.mp hvalid
  have honce := RuleSpec.definesOnce_of_checkPatterns (checkPatterns_of_checkRules hrules r hr)
  have hdistinct : s.Distinct := (Schema.Built.base.defineAll hschema).distinct
  obtain ⟨c, hrun, hwithin⟩ := RuleSpec.exists_drafted_of_compile h
  obtain ⟨t, rfl, hsound, hsearch, hreplace, hstands⟩ :=
    RuleSpec.exists_trail_of_drafted hdistinct hsorted hrun
  obtain ⟨ids, hlays, hids⟩ := hsound.exists_lays honce hsearch hreplace hstands
  refine ⟨⟨ids, hlays.mono hwithin⟩, fun ids' hlays' place place' p p' hat hat' => ?_⟩
  have hunique := hlays'.unique (hlays.mono hwithin)
  rw [hunique place p hat, hunique place' p' hat']
  exact hsound.eq_iff hids hat hat'

/-- A pair of a leaf and the same leaf, met first where it is referred to, becomes a pair of some
leaf and of that leaf with a rule run over it. -/
def mirror : RuleSpec where
  id := "mirror"
  description := none
  mode := .search
  search := .mk none (some "Pair") (.standard none [
    ("left", .one (.mk (some "leaf") none .ref)),
    ("right", .one (.mk (some "leaf") (some "Leaf") (.standard none [])))])
  replace := some (.mk none (some "Pair") (.standard none [
    ("left", .one (.mk none (some "Leaf") (.standard none []))),
    ("right", .one (.mk none none (.slave (.mk (some "leaf") none .ref)
      (.mk none (some "Leaf") (.standard none [])) none .search)))]))
  maxRepetitions := none

def mirrored : RuleFile where
  info := { name := "mirrored", description := none, maxRepetitions := 1, strict := true }
  kinds := [
    { name := "Pair", parent := none, members := [⟨"left", .single⟩, ⟨"right", .single⟩],
      valued := false },
    { name := "Leaf", parent := none, members := [], valued := true }]
  rules := [mirror]

def mirroredSchema : Schema := (Schema.ofKinds mirrored.kinds).toOption.getD .base

/-- The name is one node wherever it is met; the leaves without a name are two. -/
theorem lays_of_compile_mirror :
    mirrored.issues = [] ∧ ∃ rule ids, mirror.compile mirrored.info mirroredSchema = .ok rule ∧
      mirror.Lays rule.rule.patterns rule.rule.search rule.rule.replace ids ∧
      ids [.search, .member "left" 0] = ids [.search, .member "right" 0] ∧
      ids [.search, .member "right" 0] = ids [.replace, .member "right" 0, .through] ∧
      ids [.replace, .member "left" 0] ≠ ids [.replace, .member "right" 0, .search] := by
  have hvalid : mirrored.issues = [] := by decide +kernel
  have hsorted : mirror.Sorted := by decide +kernel
  have hschema : Schema.ofKinds mirrored.kinds = .ok mirroredSchema := by decide +kernel
  have hok : (mirror.compile mirrored.info mirroredSchema).isOk = true := by decide +kernel
  cases hcompile : mirror.compile mirrored.info mirroredSchema with
  | error e =>
    rw [hcompile] at hok
    cases hok
  | ok rule =>
    obtain ⟨⟨ids, hlays⟩, hiff⟩ :=
      lays_of_compile hvalid (List.mem_singleton_self mirror) hsorted hschema hcompile
    refine ⟨hvalid, rule, ids, rfl, hlays, ?_, ?_, fun heq => ?_⟩
    · exact (hiff ids hlays _ _ _ _ rfl rfl).mpr (.inr ⟨"leaf", rfl, rfl⟩)
    · exact (hiff ids hlays _ _ _ _ rfl rfl).mpr (.inr ⟨"leaf", rfl, rfl⟩)
    · obtain hplace | ⟨name, hname, -⟩ := (hiff ids hlays _ _ _ _ rfl rfl).mp heq
      · simp at hplace
      · cases hname

end RuleFile

end Espalier
