import Espalier.Proofs.Places
import Espalier.Proofs.Resolving

/-!
# What patterns are compiled to

A pattern becomes a node of its kind whose agent refers to the nodes of the patterns inside it.
While patterns are compiled a trail is kept of the place that each node stands for; nodes that only
wrap others stand for none.  At any time all that is on the trail is laid out as it is written.
-/

namespace Espalier

/-! ## Nodes laid out as written -/

/-- The member of a category with some children, of which a single member takes the first. -/
def Member.holding {α : Type} (children : List α) : Category → Member α
  | .single => .single children.head?
  | .sequence => .sequence children
  | .collection => .collection children

theorem Member.holding_children {α : Type} (m : Member α) :
    Member.holding m.children m.category = m := by
  cases m with
  | single child => cases child <;> rfl
  | sequence items => rfl
  | collection items => rfl

/-- A single member takes one pattern, and a container takes a list. -/
def MemberPattern.suits : MemberPattern → Category → Bool
  | .one _, category => category == .single
  | .many _, category => category != .single

/-- Without a name it is `Node`. -/
def Schema.IsKind (s : Schema) : Option String → KindId → Prop
  | none, k => k = nodeKind
  | some name, k => s.lookup name = some k

variable {s : Schema}

/-- `root` overlays a search pattern by its replacement, or by itself if there is none; in search
mode it looks for that overlay everywhere. -/
def PatternSet.IsRoot (ps : PatternSet s) (search : PatternId) (replace : Option PatternId) :
    Mode → PatternId → Prop
  | .compare, root => ps.nodes[root]? = some ⟨Schema.nodeKind,
      .overlay search (replace.getD search)⟩
  | .search, root => ∃ overlay, ps.nodes[root]? = some ⟨Schema.nodeKind, .stuff overlay none⟩ ∧
      ps.nodes[overlay]? = some ⟨Schema.nodeKind, .overlay search (replace.getD search)⟩

/-- An agent is as it is written, where `ids` are the nodes of the patterns inside.  The members
come in the order of the layout, and all that are given are declared there. -/
def AgentSpec.Laid (ps : PatternSet s) (kind : KindId) (ids : Step → PatternId) :
    AgentSpec → Agent PatternId → Prop
  | .standard value given, agent =>
    agent = .standard value ((s.layout kind).map fun d =>
      .holding ((itemsFor given d.name).mapIdx fun i _ => ids (.member d.name i)) d.category) ∧
    ∀ e ∈ given, ∃ d ∈ s.layout kind, d.name = e.1 ∧ e.2.suits d.category = true
  | .star restriction, agent => agent = .star (restriction.map fun _ => ids .restriction)
  | .stuff _ restriction, agent =>
    agent = .stuff (ids .terminus) (restriction.map fun _ => ids .restriction)
  | .anyNode _, agent => agent = .anyNode (ids .terminus)
  | .overlay _ _, agent => agent = .overlay (ids .through) (ids .above)
  | .notMatch _, agent => agent = .notMatch (ids .negated)
  | .matchAll ps, agent => agent = .matchAll (ps.mapIdx fun i _ => ids (.item i))
  | .matchAny ps, agent => agent = .matchAny (ps.mapIdx fun i _ => ids (.item i))
  | .greenGrass _, agent => agent = .greenGrass (ids .through)
  | .slave _ _ replace mode, agent =>
    ∃ root, agent = .slave (ids .through) root ∧
      ps.IsRoot (ids .search) (replace.map fun _ => ids .replace) mode root
  | .ref, _ => False

namespace PatternSet

variable {ps ps' : PatternSet s} {n : Pattern PatternId}

theorem size_le_push (ps : PatternSet s) (n : Pattern PatternId) : ps.size ≤ (ps.push n).size := by
  unfold push
  split
  next => exact Nat.le_of_lt (by simp [size])
  next => exact Nat.le_refl _

theorem getElem?_push_of_eq_some {id : PatternId} {m : Pattern PatternId}
    (h : ps.nodes[id]? = some m) : (ps.push n).nodes[id]? = some m := by
  unfold push
  split
  next =>
    have hlt : id < ps.nodes.size := (Array.getElem?_eq_some_iff.mp h).1
    rw [Array.getElem?_push, if_neg (Nat.ne_of_lt hlt), h]
  next => exact h

theorem getElem?_push_size (h : ∀ c ∈ n.agent.children, c < ps.size) :
    (ps.push n).nodes[ps.size]? = some n := by
  rw [push, dif_pos h]
  exact Array.getElem?_push_size

/-- All nodes of the one are nodes of the other. -/
def Within (ps ps' : PatternSet s) : Prop :=
  ∀ (id : PatternId) (n : Pattern PatternId), ps.nodes[id]? = some n → ps'.nodes[id]? = some n

theorem IsRoot.mono {search : PatternId} {replace : Option PatternId} {mode : Mode}
    {root : PatternId} (h : ps.IsRoot search replace mode root) (hps : ps.Within ps') :
    ps'.IsRoot search replace mode root := by
  cases mode with
  | compare => exact hps _ _ h
  | search =>
    obtain ⟨overlay, hroot, hoverlay⟩ := h
    exact ⟨overlay, hps _ _ hroot, hps _ _ hoverlay⟩

end PatternSet

theorem AgentSpec.Laid.mono {ps ps' : PatternSet s} {kind : KindId} {ids : Step → PatternId}
    {spec : AgentSpec} {agent : Agent PatternId} (h : spec.Laid ps kind ids agent)
    (hps : ps.Within ps') : spec.Laid ps' kind ids agent := by
  cases spec with
  | slave through search replace mode =>
    obtain ⟨root, hagent, hroot⟩ := h
    exact ⟨root, hagent, hroot.mono hps⟩
  | _ => exact h

/-! ## Trails -/

/-- What has been compiled so far, with the places that nodes stand for. -/
structure Trail (s : Schema) where
  compiled : Compiled s
  origin : PatternId → Option Place
  origin_lt : ∀ id place, origin id = some place → id < compiled.patterns.size

namespace Trail

variable {r : RuleSpec} {t t' t'' : Trail s} {place : Place} {p : PatternSpec} {id : PatternId}
  {building : List String}

/-- The node that a pattern at a place is compiled to: by its name, or else by its place. -/
def Stands (t : Trail s) (place : Place) (p : PatternSpec) (id : PatternId) : Prop :=
  match p.name with
  | some name => t.compiled.names.lookup name = some id
  | none => t.origin id = some place

/-- The node is laid out as it is written at the place, where `ids` are the nodes of the patterns
inside. -/
def Formed (t : Trail s) (r : RuleSpec) (place : Place) (id : PatternId) (ids : Step → PatternId) :
    Prop :=
  ∃ p kind agent, r.patternAt place = some p ∧ t.compiled.patterns.nodes[id]? = some ⟨kind, agent⟩ ∧
    s.IsKind p.kind kind ∧ p.agent.Laid t.compiled.patterns kind ids agent ∧
    ∀ step q, p.agent.child step = some q → t.Stands (place ++ [step]) q (ids step)

/-- All that is on the trail is laid out as it is written, and names are those of their
definitions. -/
structure Sound (r : RuleSpec) (t : Trail s) : Prop where
  formed : ∀ id place, t.origin id = some place → ∃ ids, t.Formed r place id ids
  named : ∀ name id, t.compiled.names.lookup name = some id →
    ∃ place p, t.origin id = some place ∧ r.patternAt place = some p ∧ p.defines name = true

/-- Nothing is taken back. -/
structure Extends (t t' : Trail s) : Prop where
  within : t.compiled.patterns.Within t'.compiled.patterns
  names : ∀ name id, t.compiled.names.lookup name = some id →
    t'.compiled.names.lookup name = some id
  origin : ∀ id place, t.origin id = some place → t'.origin id = some place

/-- A trail goes on to another that is as sound and gives no name to what is still being built. -/
structure Leads (r : RuleSpec) (building : List String) (t t' : Trail s) :
    Prop extends t.Extends t' where
  sound : t.Sound r → t'.Sound r
  unbuilt : ∀ name ∈ building, t.compiled.names.lookup name = none →
    t'.compiled.names.lookup name = none

theorem Extends.refl (t : Trail s) : t.Extends t where
  within _ _ h := h
  names _ _ h := h
  origin _ _ h := h

theorem Extends.trans (h : t.Extends t') (h' : t'.Extends t'') : t.Extends t'' where
  within _ _ hn := h'.within _ _ (h.within _ _ hn)
  names _ _ hname := h'.names _ _ (h.names _ _ hname)
  origin _ _ hplace := h'.origin _ _ (h.origin _ _ hplace)

theorem Stands.mono (h : t.Stands place p id) (ht : t.Extends t') : t'.Stands place p id := by
  unfold Stands at h ⊢
  split
  next name hname =>
    rw [hname] at h
    exact ht.names name id h
  next hname =>
    rw [hname] at h
    exact ht.origin id place h

theorem Formed.mono {ids : Step → PatternId} (h : t.Formed r place id ids) (ht : t.Extends t') :
    t'.Formed r place id ids := by
  obtain ⟨p, kind, agent, hat, hnode, hkind, hlaid, hids⟩ := h
  exact ⟨p, kind, agent, hat, ht.within _ _ hnode, hkind, hlaid.mono ht.within,
    fun step q hq => (hids step q hq).mono ht⟩

/-- What stands on the trail stands on one that goes on from it. -/
theorem Sound.formed_mono (h : t.Sound r) (ht : t.Extends t') (hplace : t.origin id = some place) :
    ∃ ids, t'.Formed r place id ids :=
  (h.formed id place hplace).imp fun _ hformed => hformed.mono ht

theorem Leads.refl (t : Trail s) : t.Leads r building t where
  toExtends := .refl t
  sound h := h
  unbuilt _ _ h := h

theorem Leads.trans (h : t.Leads r building t') (h' : t'.Leads r building t'') :
    t.Leads r building t'' where
  toExtends := h.toExtends.trans h'.toExtends
  sound ht := h'.sound (h.sound ht)
  unbuilt name hname ht := h'.unbuilt name hname (h.unbuilt name hname ht)

/-- Add a node that stands for no place. -/
def push (t : Trail s) (n : Pattern PatternId) : Trail s where
  compiled := { t.compiled with patterns := t.compiled.patterns.push n }
  origin := t.origin
  origin_lt id place h := Nat.lt_of_lt_of_le (t.origin_lt id place h) (PatternSet.size_le_push _ n)

theorem extends_push (t : Trail s) (n : Pattern PatternId) : t.Extends (t.push n) where
  within _ _ h := PatternSet.getElem?_push_of_eq_some h
  names _ _ h := h
  origin _ _ h := h

theorem leads_push (t : Trail s) (n : Pattern PatternId) : t.Leads r building (t.push n) where
  toExtends := t.extends_push n
  sound h := ⟨fun _ _ => h.formed_mono (t.extends_push n), h.named⟩
  unbuilt _ _ h := h

theorem lt_of_note {place : Place} {id : PatternId} (hid : id < t.compiled.patterns.size)
    (id' : PatternId) (place' : Place)
    (h : (if id' = id then some place else t.origin id') = some place') :
    id' < t.compiled.patterns.size := by
  split at h
  next heq => exact heq ▸ hid
  next => exact t.origin_lt id' place' h

/-- Note the place that a node stands for. -/
def note (t : Trail s) (place : Place) (id : PatternId) (hid : id < t.compiled.patterns.size) :
    Trail s where
  compiled := t.compiled
  origin id' := if id' = id then some place else t.origin id'
  origin_lt := lt_of_note hid

theorem extends_note {hid : id < t.compiled.patterns.size} (hnew : t.origin id = none) :
    t.Extends (t.note place id hid) where
  within _ _ h := h
  names _ _ h := h
  origin id' place' h := by
    have hne : id' ≠ id := by
      rintro rfl
      rw [hnew] at h
      cases h
    exact (if_neg hne).trans h

theorem leads_note {hid : id < t.compiled.patterns.size} {ids : Step → PatternId}
    (hnew : t.origin id = none) (hformed : t.Formed r place id ids) :
    t.Leads r building (t.note place id hid) where
  toExtends := extends_note hnew
  sound h := by
    constructor
    case formed =>
      intro id' place' hplace
      by_cases heq : id' = id
      · obtain rfl : place = place' := Option.some.inj ((if_pos heq).symm.trans hplace)
        obtain rfl := heq
        exact ⟨ids, hformed.mono (extends_note hnew)⟩
      · exact h.formed_mono (extends_note hnew) ((if_neg heq).symm.trans hplace)
    case named =>
      intro name id' hname
      obtain ⟨place', p, horigin, hp⟩ := h.named name id' hname
      exact ⟨place', p, (extends_note hnew).origin id' place' horigin, hp⟩
  unbuilt _ _ h := h

/-- Name a node. -/
def name (t : Trail s) (name : String) (id : PatternId) : Trail s where
  compiled := { t.compiled with names := (name, id) :: t.compiled.names }
  origin := t.origin
  origin_lt := t.origin_lt

theorem extends_name {name : String} (hfree : t.compiled.names.lookup name = none) :
    t.Extends (t.name name id) where
  within _ _ h := h
  names name' id' h := by
    have hne : name' ≠ name := by
      rintro rfl
      rw [hfree] at h
      cases h
    exact (List.lookup_cons.trans (by rw [beq_eq_false_iff_ne.mpr hne])).trans h
  origin _ _ h := h

/-- A name that is not yet given is given to its definition. -/
theorem leads_name {name : String} (hfree : t.compiled.names.lookup name = none)
    (hname : name ∉ building) (horigin : t.origin id = some place)
    (hat : r.patternAt place = some p) (hp : p.defines name = true) :
    t.Leads r building (t.name name id) where
  toExtends := extends_name hfree
  sound h := by
    constructor
    case formed => exact fun _ _ => h.formed_mono (extends_name hfree)
    case named =>
      intro name' id' hlookup
      by_cases heq : name' = name
      · obtain rfl := heq
        obtain rfl : id = id' := Option.some.inj (List.lookup_cons_self.symm.trans hlookup)
        exact ⟨place, p, horigin, hat, hp⟩
      · refine h.named name' id' ?_
        rwa [Trail.name, List.lookup_cons, beq_eq_false_iff_ne.mpr heq] at hlookup
  unbuilt name' hname' h := by
    have hne : name' ≠ name := by
      rintro rfl
      exact hname hname'
    exact (List.lookup_cons.trans (by rw [beq_eq_false_iff_ne.mpr hne])).trans h

/-- The nodes of some patterns, each at its place. -/
def StandAll (t : Trail s) (places : Nat → Place) (ps : List PatternSpec) (qs : List PatternId) :
    Prop :=
  qs.length = ps.length ∧ ∀ i p, ps[i]? = some p → t.Stands (places i) p (qs.getD i 0)

theorem StandAll.mono {places : Nat → Place} {ps : List PatternSpec} {qs : List PatternId}
    (h : t.StandAll places ps qs) (ht : t.Extends t') : t'.StandAll places ps qs :=
  ⟨h.1, fun i p hp => (h.2 i p hp).mono ht⟩

theorem StandAll.nil {places : Nat → Place} : t.StandAll places [] [] := ⟨rfl, by simp⟩

theorem StandAll.cons {places : Nat → Place} {ps : List PatternSpec} {qs : List PatternId}
    (h : t.Stands (places 0) p id) (h' : t.StandAll (fun i => places (i + 1)) ps qs) :
    t.StandAll places (p :: ps) (id :: qs) := by
  refine ⟨by rw [List.length_cons, List.length_cons, h'.1], fun i q hq => ?_⟩
  cases i with
  | zero =>
    obtain rfl : p = q := by simpa using hq
    exact h
  | succ i => exact h'.2 i q hq

/-- The nodes of a list of patterns are read off by their indices. -/
theorem StandAll.eq_mapIdx {places : Nat → Place} {ps : List PatternSpec} {qs : List PatternId}
    (h : t.StandAll places ps qs) : qs = ps.mapIdx fun i _ => qs.getD i 0 := by
  refine List.ext_getElem (by rw [List.length_mapIdx, h.1]) fun i hi _ => ?_
  rw [List.getElem_mapIdx, List.getD_eq_getElem?_getD, List.getElem?_eq_getElem hi,
    Option.getD_some]

/-- A member has the children that are given for it. -/
structure Fills (t : Trail s) (place : Place) (given : List (String × MemberPattern))
    (d : MemberDecl) (m : Member PatternId) : Prop where
  category : m.category = d.category
  children : t.StandAll (fun i => place ++ [.member d.name i]) (itemsFor given d.name) m.children
  suits : ∀ p ∈ given.lookup d.name, p.suits d.category = true

theorem Fills.mono {given : List (String × MemberPattern)} {d : MemberDecl} {m : Member PatternId}
    (h : t.Fills place given d m) (ht : t.Extends t') : t'.Fills place given d m :=
  ⟨h.category, h.children.mono ht, h.suits⟩

end Trail

namespace Compile

variable {α β : Type}

/-- If the computation succeeds, the trail leads to one of which `Q` holds with the result. -/
def Traces (r : RuleSpec) (building : List String) (x : Compile s α) (t : Trail s)
    (Q : Trail s → α → Prop) : Prop :=
  ∀ a c, x t.compiled = .ok a c → ∃ t' : Trail s, t'.compiled = c ∧ t.Leads r building t' ∧ Q t' a

namespace Traces

variable {r : RuleSpec} {building : List String} {x : Compile s α} {t : Trail s}
  {Q : Trail s → α → Prop} {R : Trail s → β → Prop}

theorem pure {a : α} (h : Q t a) : Traces r building (pure a : Compile s α) t Q := by
  rintro _ _ ⟨⟩
  exact ⟨t, rfl, .refl t, h⟩

theorem throw (e : CompileError) : Traces r building (throw e : Compile s α) t Q := by
  rintro _ _ ⟨⟩

theorem bind {g : α → Compile s β} (hx : Traces r building x t Q)
    (hg : ∀ a t', t.Leads r building t' → Q t' a → Traces r building (g a) t' R) :
    Traces r building (x >>= g) t R := by
  intro b c h
  simp only [Bind.bind, EStateM.bind] at h
  split at h
  next a c₁ ha =>
    obtain ⟨t₁, rfl, hleads, hq⟩ := hx a _ ha
    obtain ⟨t₂, hc, hleads₂, hr⟩ := hg a t₁ hleads hq b c h
    exact ⟨t₂, hc, hleads.trans hleads₂, hr⟩
  next => cases h

theorem mono {P : Trail s → α → Prop} (hx : Traces r building x t Q)
    (h : ∀ t' a, t.Leads r building t' → Q t' a → P t' a) : Traces r building x t P := by
  intro a c hrun
  obtain ⟨t', hc, hleads, hq⟩ := hx a c hrun
  exact ⟨t', hc, hleads, h t' a hleads hq⟩

theorem get {g : Compiled s → Compile s β} (hg : Traces r building (g t.compiled) t R) :
    Traces r building (get >>= g) t R :=
  fun b c h => hg b c h

theorem mapM {g : α → Compile s β} {xs : List α} {R : Trail s → α → β → Prop}
    (hmono : ∀ t t' a b, t.Extends t' → R t a b → R t' a b)
    (h : ∀ a ∈ xs, ∀ t, Traces r building (g a) t fun t' b => R t' a b) (t : Trail s) :
    Traces r building (xs.mapM g) t fun t' bs => List.Forall₂ (R t') xs bs := by
  induction xs generalizing t with
  | nil => exact .pure .nil
  | cons a xs ih =>
    rw [List.forall_mem_cons] at h
    rw [List.mapM_cons]
    refine (h.1 t).bind fun b t₁ _ hb => (ih h.2 t₁).bind fun bs t₂ hleads hbs => .pure ?_
    exact .cons (hmono _ _ a b hleads.toExtends hb) hbs

theorem kindOf (rule : String) (kind : Option String) :
    Traces r building (kindOf rule kind : Compile s KindId) t fun _ k => s.IsKind kind k := by
  cases kind with
  | none => exact .pure rfl
  | some name =>
    rw [Compile.kindOf, Schema.kind]
    cases hname : s.lookup name with
    | none => exact .throw _
    | some k => exact .pure hname

/-- A node that stands for no place. -/
theorem push (rule : String) (kind : KindId) (agent : Agent PatternId) :
    Traces r building (draft rule (Draft.pattern kind agent) : Compile s PatternId) t fun t' id =>
      t'.compiled.patterns.nodes[id]? = some ⟨kind, agent⟩ := by
  intro id c h
  unfold draft at h
  split at h
  next id' ps hrun =>
    cases h
    obtain ⟨-, rfl, rfl, hlow⟩ := PatternSet.eq_push_of_draft hrun
    exact ⟨t.push ⟨kind, agent⟩, rfl, t.leads_push _, PatternSet.getElem?_push_size hlow⟩
  next => cases h

/-- A node that stands for a place, laid out as it is written there. -/
theorem pushAt (rule : String) {place : Place} {p : PatternSpec} {kind : KindId}
    {agent : Agent PatternId} (hat : r.patternAt place = some p) (hkind : s.IsKind p.kind kind)
    (ids : Step → PatternId) (hlaid : p.agent.Laid t.compiled.patterns kind ids agent)
    (hids : ∀ step q, p.agent.child step = some q → t.Stands (place ++ [step]) q (ids step)) :
    Traces r building (draft rule (Draft.pattern kind agent) : Compile s PatternId) t fun t' id =>
      t'.origin id = some place := by
  intro id c h
  unfold draft at h
  split at h
  next id' ps hrun =>
    cases h
    obtain ⟨-, rfl, rfl, hlow⟩ := PatternSet.eq_push_of_draft hrun
    have hnew : (t.push ⟨kind, agent⟩).origin t.compiled.patterns.size = none :=
      Option.eq_none_iff_forall_ne_some.mpr fun place h => Nat.lt_irrefl _ (t.origin_lt _ place h)
    have hsize : (t.compiled.patterns.push ⟨kind, agent⟩).size = t.compiled.patterns.size + 1 :=
      PatternSet.size_push hlow
    have hid : t.compiled.patterns.size < (t.push ⟨kind, agent⟩).compiled.patterns.size :=
      Nat.lt_of_lt_of_eq (Nat.lt_succ_self _) hsize.symm
    have hformed : (t.push ⟨kind, agent⟩).Formed r place t.compiled.patterns.size ids :=
      ⟨p, kind, agent, hat, PatternSet.getElem?_push_size hlow, hkind,
        hlaid.mono (t.extends_push _).within,
        fun step q hq => (hids step q hq).mono (t.extends_push _)⟩
    exact ⟨(t.push ⟨kind, agent⟩).note place t.compiled.patterns.size hid, rfl,
      (t.leads_push _).trans (Trail.leads_note hnew hformed), if_pos rfl⟩
  next => cases h

theorem wrap (rule : String) (search : PatternId) (replace : Option PatternId) (mode : Mode) :
    Traces r building (draft rule (Draft.wrap search replace mode) : Compile s PatternId) t
      fun t' root =>
      t'.compiled.patterns.IsRoot search replace mode root := by
  rw [Draft.wrap, draft_bind]
  refine (push rule _ _).bind fun overlay t₁ _ hoverlay => ?_
  cases mode with
  | compare => exact .pure hoverlay
  | search =>
    exact (push rule _ _).mono fun t₂ root hleads hroot =>
      ⟨overlay, hroot, hleads.within _ _ hoverlay⟩

/-- To name a node that stands for the definition of the name. -/
theorem name {place : Place} {p : PatternSpec} {name : String} {id : PatternId}
    (hfree : t.compiled.names.lookup name = none) (hname : name ∉ building)
    (horigin : t.origin id = some place) (hat : r.patternAt place = some p)
    (hp : p.defines name = true) :
    Traces r building (modify fun c => { c with names := (name, id) :: c.names } : Compile s PUnit)
      t fun t' _ => t'.compiled.names.lookup name = some id := by
  rintro _ _ ⟨⟩
  exact ⟨t.name name id, rfl, Trail.leads_name hfree hname horigin hat hp, List.lookup_cons_self⟩

/-- What is built meanwhile is not given a name. -/
theorem leave {name : String} (h : Traces r (name :: building) x t Q)
    (hfree : t.compiled.names.lookup name = none) :
    Traces r building x t fun t' a => Q t' a ∧ t'.compiled.names.lookup name = none := by
  intro a c hrun
  obtain ⟨t', hc, hleads, hq⟩ := h a c hrun
  have hunbuilt := List.forall_mem_cons.mp hleads.unbuilt
  exact ⟨t', hc, ⟨hleads.toExtends, hleads.sound, hunbuilt.2⟩, hq, hunbuilt.1 hfree⟩

end Traces

/-- A member pattern is compiled to the nodes of its patterns, each at its place. -/
def Part.Traces (r : RuleSpec) (building : List String) (places : Nat → Place) :
    MemberPattern → Part s → Prop
  | .one p, .one x => ∀ t, Compile.Traces r building x t fun t' id => t'.Stands (places 0) p id
  | .many ps, .many x => ∀ t, Compile.Traces r building x t fun t' ids => t'.StandAll places ps ids
  | _, _ => False

variable {r : RuleSpec} {building : List String} {place : Place}
  {resolve : String → Compile s PatternId}

/-- The members of a standard pattern, where a part for each name is compiled as it is given. -/
theorem traces_members (rule : String) (kind : KindId) {given : List (String × MemberPattern)}
    {parts : List (String × Part s)}
    (hparts : ∀ name, Option.Rel (Part.Traces r building fun i => place ++ [.member name i])
      (given.lookup name) (parts.lookup name)) (t : Trail s) :
    Traces r building (members rule kind parts) t fun t' ms =>
      List.Forall₂ (t'.Fills place given) (s.layout kind) ms ∧
        ∀ e ∈ given, ∃ d ∈ s.layout kind, d.name = e.1 := by
  rw [members]
  split
  next => exact .throw _
  next hfind =>
    -- A member that is given has a part, and of the parts none is without a declaration.
    have hdeclared : ∀ e ∈ given, ∃ d ∈ s.layout kind, d.name = e.1 := by
      rintro ⟨name, m⟩ he
      obtain ⟨m', hm'⟩ := exists_lookup_of_mem he
      have hrel := hparts name
      rw [hm'] at hrel
      generalize hpart : parts.lookup name = part at hrel
      cases hrel with
      | some _ =>
        have hknown := List.find?_eq_none.mp hfind _ (mem_of_lookup hpart)
        by_contra hnone
        refine hknown (Option.isNone_iff_eq_none.mpr (Schema.memberIndex_eq_none_iff.mpr ?_))
        exact fun d hd hname => hnone ⟨d, hd, hname⟩
    refine (Traces.mapM (R := fun t' (e : MemberDecl × Nat) m => t'.Fills place given e.1 m)
      (fun _ _ _ _ ht h => h.mono ht) ?_ t).mono fun t' ms _ hms => ⟨?_, hdeclared⟩
    · rintro ⟨d, index⟩ - t
      dsimp only
      have hrel := hparts d.name
      generalize hgiven : given.lookup d.name = pattern at hrel
      have hitems : itemsFor given d.name = (pattern.map MemberPattern.items).getD [] := by
        rw [itemsFor, hgiven]
      generalize parts.lookup d.name = part at hrel
      cases hrel with
      | none =>
        refine .pure ⟨Member.category_empty _, ?_, by simp [hgiven]⟩
        rw [hitems, Member.children_empty]
        exact .nil
      | @some m part htraces =>
        cases m with
        | one p =>
          cases part with
          | many x => exact htraces.elim
          | one x =>
            dsimp only
            split
            next hsingle =>
              refine (htraces t).bind fun id t₁ _ hid => .pure ⟨hsingle.symm, ?_, ?_⟩
              · rw [hitems]
                exact .cons hid .nil
              · simp [hgiven, MemberPattern.suits, hsingle]
            next => exact .throw _
        | many ps =>
          cases part with
          | one x => exact htraces.elim
          | many x =>
            dsimp only
            split
            next => exact .throw _
            next hsequence =>
              refine (htraces t).bind fun ids t₁ _ hids => .pure ⟨hsequence.symm, ?_, ?_⟩
              · rw [hitems]
                exact hids
              · simp [hgiven, MemberPattern.suits, hsequence]
            next hcollection =>
              refine (htraces t).bind fun ids t₁ _ hids => .pure ⟨hcollection.symm, ?_, ?_⟩
              · rw [hitems]
                exact hids
              · simp [hgiven, MemberPattern.suits, hcollection]
    · rwa [← List.zipIdx_map_fst 0 (s.layout kind), List.forall₂_map_left_iff]

/-- Names are resolved to the nodes that bear them, in a rule whose members are sorted and over a
schema in which no member is declared twice. -/
structure Tracks (r : RuleSpec) (building : List String) (resolve : String → Compile s PatternId) :
    Prop where
  distinct : s.Distinct
  sorted : r.Sorted
  named : ∀ name t, Traces r building (resolve name) t fun t' id =>
    t'.compiled.names.lookup name = some id

theorem exists_of_forall₂_layout {β : Type} {P : MemberDecl → β → Prop} {layout : List MemberDecl}
    {bs : List β} (hnodup : (layout.map MemberDecl.name).Nodup) (h : List.Forall₂ P layout bs)
    (default : β) :
    ∃ g : String → β, bs = layout.map (fun d => g d.name) ∧ ∀ d ∈ layout, P d (g d.name) := by
  induction h with
  | nil => exact ⟨fun _ => default, rfl, List.forall_mem_nil _⟩
  | @cons d b layout bs hb _ ih =>
    rw [List.map_cons, List.nodup_cons] at hnodup
    obtain ⟨g, rfl, hg⟩ := ih hnodup.2
    have hne : ∀ d' ∈ layout, d'.name ≠ d.name := fun d' hd' heq =>
      hnodup.1 (heq ▸ List.mem_map_of_mem hd')
    refine ⟨Function.update g d.name b, ?_, List.forall_mem_cons.mpr ⟨?_, fun d' hd' => ?_⟩⟩
    · rw [List.map_cons, Function.update_self]
      exact congrArg _ (List.map_congr_left fun d' hd' =>
        (Function.update_of_ne (hne d' hd') _ _).symm)
    · rwa [Function.update_self]
    · rw [Function.update_of_ne (hne d' hd')]
      exact hg d' hd'

/-- Members that are filled make a standard pattern as it is written. -/
theorem exists_laid_standard {t : Trail s} {kind : KindId} {given : List (String × MemberPattern)}
    {ms : List (Member PatternId)} (hdistinct : s.Distinct) (hsorted : NamesSorted given)
    (hms : List.Forall₂ (t.Fills place given) (s.layout kind) ms)
    (hdeclared : ∀ e ∈ given, ∃ d ∈ s.layout kind, d.name = e.1) (value : Option Value) :
    ∃ ids, (AgentSpec.standard value given).Laid t.compiled.patterns kind ids (.standard value ms) ∧
      ∀ step q, (AgentSpec.standard value given).child step = some q →
        t.Stands (place ++ [step]) q (ids step) := by
  obtain ⟨member, rfl, hfills⟩ := exists_of_forall₂_layout (hdistinct.members kind) hms
    (.single none)
  refine ⟨fun step => (member (step.member?.getD "")).children.getD step.index 0,
    ⟨?_, fun e he => ?_⟩, ?_⟩
  · refine congrArg _ (List.map_congr_left fun d hd => ?_)
    have hd := hfills d hd
    calc member d.name
      _ = .holding (member d.name).children (member d.name).category :=
        (Member.holding_children _).symm
      _ = .holding (member d.name).children d.category := by rw [hd.category]
      _ = _ := congrArg (Member.holding · d.category) hd.children.eq_mapIdx
  · obtain ⟨d, hd, hname⟩ := hdeclared e he
    refine ⟨d, hd, hname, (hfills d hd).suits e.2 ?_⟩
    rw [hname, Option.mem_def]
    exact lookup_of_mem hsorted he
  · intro step q hq
    cases step with
    | member name i =>
      obtain ⟨m, hm, -⟩ := exists_lookup_of_itemsFor hq
      obtain ⟨d, hd, rfl⟩ := hdeclared (name, m) (mem_of_lookup hm)
      exact (hfills d hd).children.2 i q hq
    | _ => cases hq

/-- A pattern with one pattern inside is laid out as it is written if that one is compiled to its
node. -/
theorem traces_one (rule : String) {p q : PatternSpec} {step : Step} {x : Compile s PatternId}
    {agent : PatternId → Agent PatternId} (hat : r.patternAt place = some p)
    (hchild : ∀ step' q', p.agent.child step' = some q' → step' = step ∧ q' = q)
    (hlaid : ∀ (ps : PatternSet s) kind id, p.agent.Laid ps kind (fun _ => id) (agent id))
    (hx : ∀ t, Traces r building x t fun t' id => t'.Stands (place ++ [step]) q id) (t : Trail s) :
    Traces r building (do
      let kind ← kindOf rule p.kind
      let id ← x
      draft rule (Draft.pattern kind (agent id))) t fun t' id => t'.origin id = some place := by
  refine (Traces.kindOf rule p.kind).bind fun k t₁ _ hk => (hx t₁).bind fun id t₂ _ hid => ?_
  refine .pushAt rule hat hk (fun _ => id) (hlaid _ k id) fun step' q' hq' => ?_
  obtain ⟨rfl, rfl⟩ := hchild step' q' hq'
  exact hid

/-- So is one with a list of patterns inside. -/
theorem traces_several (rule : String) {p : PatternSpec} {qs : List PatternSpec}
    {x : Compile s (List PatternId)} {agent : List PatternId → Agent PatternId}
    (hat : r.patternAt place = some p)
    (hchild : ∀ step q, p.agent.child step = some q → ∃ i, step = .item i ∧ qs[i]? = some q)
    (hlaid : ∀ (ps : PatternSet s) kind ids,
      p.agent.Laid ps kind ids (agent (qs.mapIdx fun i _ => ids (.item i))))
    (hx : ∀ t, Traces r building x t fun t' ids => t'.StandAll (fun i => place ++ [.item i]) qs ids)
    (t : Trail s) :
    Traces r building (do
      let kind ← kindOf rule p.kind
      let ids ← x
      draft rule (Draft.pattern kind (agent ids))) t fun t' id => t'.origin id = some place := by
  refine (Traces.kindOf rule p.kind).bind fun k t₁ _ hk => (hx t₁).bind fun ids t₂ _ hids => ?_
  rw [hids.eq_mapIdx]
  refine .pushAt rule hat hk (fun step => ids.getD step.index 0) (hlaid _ k _) fun step q hq => ?_
  obtain ⟨i, rfl, hi⟩ := hchild step q hq
  exact hids.2 i q hi

mutual

theorem traces_pattern (rule : String) (hresolve : Tracks r building resolve) :
    (p : PatternSpec) → ∀ place, r.patternAt place = some p → ∀ t,
      Traces r building (pattern rule resolve p) t fun t' id => t'.Stands place p id
  | .mk (some name) kind agent, place, _, t => by
    rw [pattern]
    exact hresolve.named name t
  | .mk none kind agent, place, hat, t => by
    rw [pattern]
    exact traces_define rule hresolve agent place hat t

/-- Whatever its name is, a pattern is compiled to a node that stands for its place. -/
theorem traces_define (rule : String) (hresolve : Tracks r building resolve)
    {name kind : Option String} :
    (agent : AgentSpec) → ∀ place, r.patternAt place = some (.mk name kind agent) → ∀ t,
      Traces r building (define rule resolve kind agent) t fun t' id => t'.origin id = some place
  | .standard value given, place, hat, t => by
    have hsorted : NamesSorted given := hresolve.sorted _ (RuleSpec.mem_patterns_of_patternAt hat)
    rw [define]
    refine (Traces.kindOf rule kind).bind fun k t₁ _ hk => ?_
    have hplaces : ∀ e ∈ given, ∀ i p, e.2.items[i]? = some p →
        r.patternAt (place ++ [.member e.1 i]) = some p := by
      intro e he i p hp
      rw [RuleSpec.patternAt_child hat]
      exact (congrArg (·[i]?) (itemsFor_of_lookup (lookup_of_mem hsorted he))).trans hp
    refine (traces_members rule k (traces_parts rule hresolve given place hplaces) t₁).bind
      fun ms t₂ _ hms => ?_
    obtain ⟨ids, hlaid, hids⟩ := exists_laid_standard hresolve.distinct hsorted hms.1 hms.2 value
    exact .pushAt rule hat hk ids hlaid hids
  | .star restriction, place, hat, t => by
    rw [define]
    refine (Traces.kindOf rule kind).bind fun k t₁ _ hk => ?_
    refine (traces_option rule hresolve restriction (place ++ [.restriction])
      (RuleSpec.patternAt_child hat _) t₁).bind fun o t₂ _ ho => ?_
    refine .pushAt rule hat hk (fun _ => o.getD 0) (congrArg _ ho.1) fun step q hq => ?_
    cases step with
    | restriction => exact ho.2 q hq
    | _ => cases hq
  | .stuff terminus restriction, place, hat, t => by
    rw [define]
    refine (Traces.kindOf rule kind).bind fun k t₁ _ hk => ?_
    refine (traces_pattern rule hresolve terminus (place ++ [.terminus])
      (RuleSpec.patternAt_child hat _) t₁).bind fun id t₂ _ hid => ?_
    refine (traces_option rule hresolve restriction (place ++ [.restriction])
      (RuleSpec.patternAt_child hat _) t₂).bind fun o t₃ hleads ho => ?_
    refine .pushAt rule hat hk (fun step => if step = .restriction then o.getD 0 else id)
      (congrArg _ ho.1) fun step q hq => ?_
    cases step with
    | restriction => exact ho.2 q hq
    | terminus =>
      cases hq
      exact hid.mono hleads.toExtends
    | _ => cases hq
  | .anyNode terminus, place, hat, t => by
    rw [define]
    refine traces_one rule hat (fun step q hq => ?_) (fun _ _ _ => rfl)
      (traces_pattern rule hresolve terminus (place ++ [.terminus])
        (RuleSpec.patternAt_child hat _)) t
    cases step with
    | terminus => exact ⟨rfl, (Option.some.inj hq).symm⟩
    | _ => cases hq
  | .overlay through above, place, hat, t => by
    rw [define]
    refine (Traces.kindOf rule kind).bind fun k t₁ _ hk => ?_
    refine (traces_pattern rule hresolve through (place ++ [.through])
      (RuleSpec.patternAt_child hat _) t₁).bind fun id t₂ _ hid => ?_
    refine (traces_pattern rule hresolve above (place ++ [.above])
      (RuleSpec.patternAt_child hat _) t₂).bind fun id' t₃ hleads hid' => ?_
    refine .pushAt rule hat hk (fun step => if step = .above then id' else id) rfl
      fun step q hq => ?_
    cases step with
    | through =>
      cases hq
      exact hid.mono hleads.toExtends
    | above =>
      cases hq
      exact hid'
    | _ => cases hq
  | .notMatch p, place, hat, t => by
    rw [define]
    refine traces_one rule hat (fun step q hq => ?_) (fun _ _ _ => rfl)
      (traces_pattern rule hresolve p (place ++ [.negated]) (RuleSpec.patternAt_child hat _)) t
    cases step with
    | negated => exact ⟨rfl, (Option.some.inj hq).symm⟩
    | _ => cases hq
  | .matchAll ps, place, hat, t => by
    rw [define]
    refine traces_several rule hat (fun step q hq => ?_) (fun _ _ _ => rfl)
      (traces_list rule hresolve ps (fun i => place ++ [.item i])
        fun i p hp => (RuleSpec.patternAt_child hat (.item i)).trans hp) t
    cases step with
    | item i => exact ⟨i, rfl, hq⟩
    | _ => cases hq
  | .matchAny ps, place, hat, t => by
    rw [define]
    refine traces_several rule hat (fun step q hq => ?_) (fun _ _ _ => rfl)
      (traces_list rule hresolve ps (fun i => place ++ [.item i])
        fun i p hp => (RuleSpec.patternAt_child hat (.item i)).trans hp) t
    cases step with
    | item i => exact ⟨i, rfl, hq⟩
    | _ => cases hq
  | .greenGrass through, place, hat, t => by
    rw [define]
    refine traces_one rule hat (fun step q hq => ?_) (fun _ _ _ => rfl)
      (traces_pattern rule hresolve through (place ++ [.through])
        (RuleSpec.patternAt_child hat _)) t
    cases step with
    | through => exact ⟨rfl, (Option.some.inj hq).symm⟩
    | _ => cases hq
  | .slave through search replace mode, place, hat, t => by
    rw [define]
    refine (Traces.kindOf rule kind).bind fun k t₁ _ hk => ?_
    refine (traces_pattern rule hresolve through (place ++ [.through])
      (RuleSpec.patternAt_child hat _) t₁).bind fun id t₂ _ hid => ?_
    refine (traces_pattern rule hresolve search (place ++ [.search])
      (RuleSpec.patternAt_child hat _) t₂).bind fun id' t₃ hleads₃ hid' => ?_
    refine (traces_option rule hresolve replace (place ++ [.replace])
      (RuleSpec.patternAt_child hat _) t₃).bind fun o t₄ hleads₄ ho => ?_
    rw [Draft.slave, draft_bind]
    refine (Traces.wrap rule id' o mode).bind fun root t₅ hleads₅ hroot => ?_
    refine .pushAt rule hat hk
      (fun step => if step = .search then id' else if step = .replace then o.getD 0 else id)
      ⟨root, rfl, ho.1 ▸ hroot⟩ fun step q hq => ?_
    cases step with
    | through =>
      cases hq
      exact hid.mono ((hleads₃.trans hleads₄).trans hleads₅).toExtends
    | search =>
      cases hq
      exact hid'.mono (hleads₄.trans hleads₅).toExtends
    | replace => exact (ho.2 q hq).mono hleads₅.toExtends
    | _ => cases hq
  | .ref, place, hat, t => by
    rw [define]
    exact (Traces.kindOf rule kind).bind fun k t₁ _ _ => .throw _

theorem traces_option (rule : String) (hresolve : Tracks r building resolve) :
    (o : Option PatternSpec) → ∀ place, r.patternAt place = o → ∀ t,
      Traces r building (option rule resolve o) t fun t' id? =>
        id? = o.map (fun _ => id?.getD 0) ∧ ∀ p, o = some p → t'.Stands place p (id?.getD 0)
  | none, place, _, t => by
    rw [option]
    exact .pure ⟨rfl, by simp⟩
  | some p, place, hat, t => by
    rw [option]
    refine (traces_pattern rule hresolve p place hat t).bind fun id t₁ _ hid => .pure ⟨rfl, ?_⟩
    rintro _ ⟨⟩
    exact hid

theorem traces_list (rule : String) (hresolve : Tracks r building resolve) :
    (ps : List PatternSpec) → ∀ places : Nat → Place,
      (∀ i p, ps[i]? = some p → r.patternAt (places i) = some p) →
      ∀ t, Traces r building (list rule resolve ps) t fun t' ids => t'.StandAll places ps ids
  | [], places, _, t => by
    rw [list]
    exact .pure .nil
  | p :: ps, places, hat, t => by
    rw [list]
    refine (traces_pattern rule hresolve p (places 0) (hat 0 p rfl) t).bind fun id t₁ _ hid => ?_
    refine (traces_list rule hresolve ps (fun i => places (i + 1)) (fun i q hq => hat (i + 1) q hq)
      t₁).bind fun ids t₂ hleads hids => .pure ?_
    exact .cons (hid.mono hleads.toExtends) hids

theorem traces_parts (rule : String) (hresolve : Tracks r building resolve) :
    (ms : List (String × MemberPattern)) → ∀ place,
      (∀ e ∈ ms, ∀ i p, e.2.items[i]? = some p → r.patternAt (place ++ [.member e.1 i]) = some p) →
      ∀ name, Option.Rel (Part.Traces r building fun i => place ++ [.member name i])
        (ms.lookup name) ((parts rule resolve ms).lookup name)
  | [], place, _, name => by
    rw [parts]
    exact .none
  | (name', m) :: ms, place, hat, name => by
    rw [List.forall_mem_cons] at hat
    rw [parts, List.lookup_cons, List.lookup_cons]
    split
    next heq =>
      obtain rfl := eq_of_beq heq
      exact .some (traces_part rule hresolve m _ hat.1)
    next => exact traces_parts rule hresolve ms place hat.2 name

theorem traces_part (rule : String) (hresolve : Tracks r building resolve) :
    (m : MemberPattern) → ∀ places : Nat → Place,
      (∀ i p, m.items[i]? = some p → r.patternAt (places i) = some p) →
      Part.Traces r building places m (part rule resolve m)
  | .one p, places, hat => by
    rw [part]
    exact traces_pattern rule hresolve p (places 0) (hat 0 p rfl)
  | .many ps, places, hat => by
    rw [part]
    exact traces_list rule hresolve ps places hat

end

/-- A name is resolved to the node of its definition, wherever it is met. -/
theorem tracks_resolved (hdistinct : s.Distinct) (hsorted : r.Sorted) (building : List String) :
    Tracks r building (resolved r.id r.definitions building : String → Compile s PatternId) := by
  induction hn : unbuilt r.definitions building using Nat.strongRecOn generalizing building with
  | ind n ih =>
    refine ⟨hdistinct, hsorted, fun name t => ?_⟩
    rw [resolved_eq]
    refine .get ?_
    split
    next id hname => exact .pure hname
    next hfree =>
      split
      next => exact .throw _
      next _ kind agent hdef =>
        split
        next => exact .throw _
        next hnew =>
          have hlt := hn ▸ unbuilt_cons_lt hdef hnew
          obtain ⟨hmem, href, hpname⟩ := RuleSpec.mem_definitions.mp (mem_of_lookup hdef)
          obtain ⟨place, hat⟩ := RuleSpec.exists_patternAt_of_mem hsorted hmem
          have hdefines := PatternSpec.defines_iff.mpr ⟨href, hpname⟩
          refine ((traces_define r.id (ih _ hlt (name :: building) rfl) agent place hat t).leave
            hfree).bind fun id t₁ _ hid => ?_
          have hname : name ∉ building := fun hmem => hnew (List.contains_iff_mem.mpr hmem)
          exact (Traces.name hid.2 hname hid.1 hat hdefines).bind fun _ t₂ _ hlookup =>
            .pure hlookup

end Compile

/-- Before anything is compiled. -/
def Trail.start : Trail s where
  compiled := ⟨.empty, []⟩
  origin _ := none
  origin_lt _ _ h := by cases h

theorem Trail.sound_start (r : RuleSpec) : (start : Trail s).Sound r where
  formed _ _ h := by cases h
  named _ _ h := by cases h

/-- The patterns of a rule are compiled along a trail on which everything is laid out as it is
written. -/
theorem RuleSpec.exists_trail_of_drafted {r : RuleSpec} {search : PatternId}
    {replace : Option PatternId} {c : Compiled s} (hdistinct : s.Distinct) (hsorted : r.Sorted)
    (h : r.drafted s = .ok (search, replace) c) :
    ∃ t : Trail s, t.compiled = c ∧ t.Sound r ∧ t.Stands [.search] r.search search ∧
      replace = r.replace.map (fun _ => replace.getD 0) ∧
        ∀ p, r.replace = some p → t.Stands [.replace] p (replace.getD 0) := by
  have hresolve := Compile.tracks_resolved hdistinct hsorted []
  have hreplace : r.patternAt [.replace] = r.replace := by
    rw [RuleSpec.patternAt]
    cases r.replace <;> rfl
  have htraces := (Compile.traces_pattern r.id hresolve r.search [.search] rfl Trail.start).bind
    fun search t₁ _ hsearch =>
      (Compile.traces_option r.id hresolve r.replace [.replace] hreplace t₁).bind
      (R := fun t' (a : PatternId × Option PatternId) => t'.Stands [.search] r.search a.1 ∧
        a.2 = r.replace.map (fun _ => a.2.getD 0) ∧
          ∀ p, r.replace = some p → t'.Stands [.replace] p (a.2.getD 0))
      fun replace t₂ hleads hreplace =>
        .pure (a := (search, replace)) ⟨hsearch.mono hleads.toExtends, hreplace⟩
  obtain ⟨t, hc, hleads, hstands⟩ := htraces (search, replace) c h
  exact ⟨t, hc, hleads.sound (Trail.sound_start r), hstands⟩

end Espalier
