import Espalier.Proofs.BuiltSchema
import Espalier.Proofs.TwinRuns

/-!
# What a rebuild is made of

A rebuild fails for want of material: a wildcard or a pattern that only searches is not coupled to
anything, or the way down to a terminus is not on record.  Every node that it puts together fits the
schema, stars are built where their elements may stand, and every slave that it comes to has its
plan.  The rounds of a slave can fail in the same ways, and besides as every run can, in the search
and by the cap.
-/

namespace Espalier

variable {s : Schema}

/-! ## Errors -/

/-- Whether the error says that there is nothing to build a pattern from. -/
def RunError.isUnbound : RunError → Bool
  | .fault (.unboundWildcard _) | .fault (.searchOnly _) | .fault (.terminusLost _) => true
  | _ => false

/-- Whether the error is one that ends a run: of its search, of the cap, or of a rebuild that lacks
material. -/
def RunError.endsRun : RunError → Bool
  | .fault (.keyedTwice _) | .possiblyInfinite .. => true
  | e => e.isUnbound

theorem RunError.endsRun_of_isUnbound {e : RunError} (h : e.isUnbound = true) :
    e.endsRun = true := by
  unfold endsRun
  split
  · rfl
  · rfl
  · exact h

/-- How a rebuild of `root` may fail on a forest that has grown from `f₀`: it lacks material, or the
run of a slave that it comes to ends with an error. -/
inductive Workshop.Fails (shop : Workshop s) (plan : RulePlan) (view : View) (root : PatternId)
    (f₀ : Forest s) : RunError → Prop where
  | unbound {e : RunError} (h : e.isUnbound = true) : Fails shop plan view root f₀ e
  | slave {p : PatternId} {slavePlan : RulePlan} {f f' : Forest s} {start : NodeId} {e : RunError}
      (hp : p ∈ shop.patterns.rebuiltFrom root) (hplan : plan.slave? p = some slavePlan)
      (hext : f₀.Extends f) (hstart : start < f.size)
      (hrun : shop.run slavePlan view start f = .error e f') (hends : e.endsRun = true) :
      Fails shop plan view root f₀ e

theorem Workshop.Fails.endsRun {shop : Workshop s} {plan : RulePlan} {view : View}
    {root : PatternId} {f₀ : Forest s} {e : RunError} (h : shop.Fails plan view root f₀ e) :
    e.endsRun = true := by
  cases h with
  | unbound h => exact RunError.endsRun_of_isUnbound h
  | slave _ _ _ _ _ hends => exact hends

/-! ## Keys and ways in a forest -/

/-- The key is a node of the forest, or for a star a run of them. -/
structure Key.Suits (f : Forest s) (star : Bool) (key : Key) : Prop where
  isSome_node? : key.node?.isSome = !star
  lt_size : ∀ x ∈ key.nodes, x < f.size

namespace Key.Suits

variable {f f' : Forest s} {star : Bool} {key : Key} {x : NodeId}

theorem node (hx : x < f.size) : (Key.node x).Suits f false :=
  ⟨rfl, by simpa using hx⟩

theorem later (h : key.Suits f star) (hext : f.Extends f') : key.Suits f' star :=
  ⟨h.isSome_node?, fun x hx => Nat.lt_of_lt_of_le (h.lt_size x hx) hext.size_le⟩

end Key.Suits

/-- What is coupled suits its pattern, and the ways on record lead down the forest. -/
structure Couplings.Grounded (ps : PatternSet s) (f : Forest s) (c : Couplings) : Prop where
  suits : ∀ p key, c.get? p = some key → key.Suits f (ps.isStar p)
  ways : ∀ p path, c.path? p = some path → (ps.pattern p).agent.leads = true →
    path.IsChain (Site.Below f) ∧ ∀ site ∈ path, site.node < f.size

theorem Site.Below.later {f f' : Forest s} {a b : Site} (h : a.Below f b) (hext : f.Extends f')
    (ha : a.node < f.size) : a.Below f' b := by
  rw [Below, hext.get_eq a.node ha]
  exact h

theorem Couplings.Grounded.later {ps : PatternSet s} {f f' : Forest s} {c : Couplings}
    (h : c.Grounded ps f) (hext : f.Extends f') : c.Grounded ps f' where
  suits p key hp := (h.suits p key hp).later hext
  ways p path hpath hleads := by
    obtain ⟨hchain, hsites⟩ := h.ways p path hpath hleads
    refine ⟨?_, fun site hsite => Nat.lt_of_lt_of_le (hsites site hsite) hext.size_le⟩
    exact List.IsChain.imp_of_mem_imp (fun a b ha _ hab => hab.later hext (hsites a ha)) hchain

/-! ## What a search comes to -/

/-- An attempt that gives a result gives a related one in its mirror. -/
theorem Attempt.Mirrors.exists_gives {α β : Type} {R : α → β → Prop} {x : Attempt α} {y : Attempt β}
    (h : x.Mirrors R y) {a : α} (ha : x.Gives a) : ∃ b, y.Gives b ∧ R a b := by
  obtain ⟨r, hr, hends⟩ := exists_mem_of_forall₂ h ha
  cases hends with
  | ok hab => exact ⟨_, hr, hab⟩

theorem Member.parallel_self {T : NodeId → NodeId → Prop} {m : Member NodeId}
    (h : ∀ c ∈ m.children, T c c) : m.Parallel T m := by
  cases m with
  | single child =>
    cases child with
    | none => exact .single .none
    | some c => exact .single (.some (h c (by simp [children])))
  | sequence items => exact .sequence (List.forall₂_same.mpr h)
  | collection items => exact .collection (List.forall₂_same.mpr h)

theorem Key.Twins.left_lt {P : ForestPair s} {key key' : Key} (h : key.Twins P key') :
    ∀ x ∈ key.nodes, x < P.left.size := by
  intro x hx
  cases h with
  | node h =>
    obtain rfl := List.mem_singleton.mp hx
    exact h.left_lt
  | run h =>
    obtain ⟨y, -, hxy⟩ := exists_mem_of_forall₂ h hx
    exact hxy.left_lt

namespace Scene

/-- The forest of a scene beside itself. -/
def twice (scene : Scene s) : ForestPair s :=
  ⟨scene.forest, scene.forest, [(scene.watermark, scene.watermark)]⟩

theorem twins_twice (scene : Scene s) {x : NodeId} (hx : x < scene.forest.size) :
    scene.twice.Twins x x := by
  induction x using Nat.strongRecOn with
  | ind x ih =>
    have hmarks (m) (hm : m ∈ scene.twice.marks) : x < m.1 ↔ x < m.2 := by
      rw [List.mem_singleton.mp hm]
    refine ForestPair.twins_iff.mpr ⟨hx, hx, hmarks, rfl, rfl, List.forall₂_same.mpr fun m hm => ?_⟩
    refine Member.parallel_self fun c hc => ?_
    have hlt : c < x := scene.forest.child_lt_of_mem (List.mem_flatMap_of_mem hm hc)
    exact ih c hlt (Nat.lt_trans hlt hx)

variable {scene : Scene s} {root : PatternId} {plan : Plan} {view : View} {x : NodeId}
  {c : Couplings}

/-- A search stays in its forest, and records ways for what it couples only: this is what it has in
common with itself beside it. -/
theorem exists_twins_of_searchFor (hw : scene.WellFormed) (hx : x < scene.forest.size)
    (h : scene.searchFor root plan (.node x) view = .ok (some c)) :
    ∃ c', c.Twins scene.twice c' := by
  rw [searchFor] at h
  obtain ⟨pr, pr', hkey, hrestrict, rfl⟩ := gives_attempt.mp (Walk.gives_of_solve_eq_some h)
  obtain ⟨hruns, -, -⟩ := gives_restrict.mp hrestrict
  have hself : Scene.Twins scene.twice scene scene :=
    ⟨rfl, rfl, rfl, List.mem_singleton_self _, hw, hw⟩
  obtain ⟨pr₁, -, hpr⟩ := (hself.key (.node (scene.twins_twice hx)) .start).exists_gives hkey
  have hmirrors : Attempt.Mirrors (Progress.Twins scene.twice)
      (pr.pending.foldlM (scene.keyRun plan) pr) (pr₁.pending.foldlM (scene.keyRun plan) pr₁) :=
    Attempt.mirrors_foldlM hpr.pending hpr fun _ _ _ _ hpr hrun => hself.keyRun hrun hpr
  obtain ⟨pr₂, -, hpr'⟩ := hmirrors.exists_gives hruns
  exact ⟨pr₂.couplings, hpr'.couplings⟩

theorem Decides.isSome_node? {p : PatternId} {key : Key} {links : List (DecidedLink (Fin p))}
    {path : Option (List Site)} (h : scene.Decides p key links path) :
    key.node?.isSome = !scene.patterns.isStar p := by
  rw [← PatternSet.isStar_pattern]
  cases key with
  | run ordered items =>
    obtain ⟨restriction, hagent, -⟩ := h
    rw [hagent]
    rfl
  | node x =>
    obtain ⟨-, hoffers⟩ := h
    generalize (scene.patterns.pattern p).agent = agent at hoffers
    cases agent with
    | star restriction => exact hoffers.elim
    | _ => rfl

theorem grounded_of_search (hw : scene.WellFormed) (hx : x < scene.forest.size)
    (h : scene.search plan (.node x) view = .ok (some c)) :
    c.Grounded scene.patterns scene.forest := by
  rw [search] at h
  obtain ⟨c', htwins⟩ := exists_twins_of_searchFor hw hx h
  rw [searchFor] at h
  obtain ⟨pr, pr', hkey, hrestrict, rfl⟩ := gives_attempt.mp (Walk.gives_of_solve_eq_some h)
  obtain ⟨hruns, -, -⟩ := gives_restrict.mp hrestrict
  obtain ⟨-, hsettled⟩ := settled_attempt hw scene.inherited_true trivial hkey hruns
  have hlt {p : PatternId} {key : Key} (hp : pr'.couplings.get? p = some key) :
      ∀ x ∈ key.nodes, x < scene.forest.size := by
    have hrel := htwins.get? p
    rw [hp] at hrel
    generalize c'.get? p = found at hrel
    cases hrel with
    | some hkey' => exact hkey'.left_lt
  constructor
  case suits =>
    intro p key hp
    obtain ⟨-, links, ⟨path, hd, -, -⟩, -⟩ := hsettled p key hp
    exact ⟨hd.isSome_node?, hlt hp⟩
  case ways =>
    intro p path hpath hleads
    obtain ⟨key, hp⟩ := Option.isSome_iff_exists.mp (htwins.keyed p (by rw [hpath]; rfl))
    obtain ⟨-, links, ⟨sites, hd, hsites, -⟩, -⟩ := hsettled p key hp
    obtain ⟨y, i, site, rfl, hsite, rfl⟩ := hd.exists_pathTo hleads
    obtain rfl : _ = path := Option.some.inj ((hsites _ rfl).symm.trans hpath)
    obtain ⟨hhead, -, hchain⟩ := Forest.isChain_pathTo hsite
    exact ⟨hchain, fun site => node_lt_of_isChain hchain hhead (hlt hp y (by simp))⟩

end Scene

/-! ## Steps of a rebuild -/

/-- The error that a computation ends with can be caught. -/
theorem Grow.exists_of_catch {ε α : Type} {x : Grow s ε α} {f : Forest s} {e : ε}
    (h : (tryCatch (x >>= fun _ => pure none) fun e => pure (some e) : Grow s ε (Option ε)).run' f =
      some (some e)) : ∃ f', x f = .error e f' := by
  simp only [tryCatch, tryCatchThe, MonadExceptOf.tryCatch, Bind.bind] at h
  unfold EStateM.run' EStateM.run EStateM.tryCatch EStateM.bind at h
  cases hx : x f with
  | ok a f' =>
    rw [hx] at h
    cases h
  | error e' f' =>
    rw [hx] at h
    obtain rfl : e' = e := Option.some.inj (Option.some.inj h)
    exact ⟨f', rfl⟩

/-- What is built suits its pattern and is new, and so is what it is built on. -/
def Terms.suiting (ps : PatternSet s) (E : RunError → Prop) : Terms s where
  forest := Forest.WellFormed
  error := E
  base f p key := key.Suits f (ps.isStar p)
  key f p key := key.Suits f (ps.isStar p)
  nodes := Forest.Fresh

namespace Terms

variable {ps : PatternSet s} {E : RunError → Prop} {f f₀ : Forest s}

theorem lawful_suiting (hbare : (default : Node NodeId).Fits s) : (suiting ps E).Lawful where
  upheld := Forest.upheld_wellFormed
  bare _ hf := hf.push hbare
  lasting_base _ _ _ _ hext hkey := hkey.later hext
  lasting_key _ _ _ _ hext hkey := hkey.later hext
  gathers := Forest.Fresh.gathers
  planted := Forest.Planted.fresh
  nodup := Forest.Fresh.nodup

theorem single_suiting {p : PatternId} (hp : ps.isStar p = false) : (suiting ps E).Single p := by
  intro f ordered items hkey
  replace hkey : Key.Suits f (ps.isStar p) (.run ordered items) := hkey
  rw [hp] at hkey
  cases hkey.isSome_node?

/-- A pattern that is no star is built into a node. -/
theorem Builds.suits {α : Type} {build : α → Option Key → Grow s RunError Key}
    {index : α → PatternId} {q : α} (h : (suiting ps E).Builds build index f₀ q)
    (hstar : ps.isStar (index q) = false) {base : Option Key} (hext : f₀.Extends f)
    (hf : f.WellFormed) (hbase : ∀ key ∈ base, Key.Suits f false key) :
    (build q base).Yields f E fun f' key => key.Suits f' false ∧ f.Fresh f' key.nodes := by
  have hbuild := h f base hext hf
  dsimp only [suiting] at hbuild
  rw [hstar] at hbuild
  exact hbuild hbase

end Terms

section Steps

variable {E : RunError → Prop} {f f₀ : Forest s}

theorem Key.Suits.yields_duplicateKey {key : Key} {star : Bool} (hkey : key.Suits f star)
    (hbare : (default : Node NodeId).Fits s) (hf : f.WellFormed) :
    (Grow.duplicateKey key).Yields f E fun f' key' =>
      key'.Suits f' star ∧ f.Fresh f' key'.nodes := by
  refine (Grow.Yields.duplicateKey Forest.upheld_wellFormed (fun _ hf => hf.push hbare) (.refl f) hf
    key).imp ?_
  rintro f' key' - - ⟨hnode, -, hplanted⟩
  exact ⟨⟨hnode.trans hkey.isSome_node?, hplanted.fresh.lt_size⟩, hplanted.fresh⟩

/-- A node of new members, of the categories that its kind has, passes the check. -/
theorem yields_insertNode_suits {ms : Grow s RunError (List (Member NodeId))} {kind : KindId}
    {value : Option Value} (hkind : kind < s.size) (hvalue : value.isSome → s.isValued kind)
    (h : ms.Yields f E fun f' members => MembersFit (s.layout kind) members ∧
      f.Fresh f' (members.flatMap Member.children)) :
    (do
      let members ← ms
      return Key.node (← Grow.orFault (Grow.insert { kind, value, members }))).Yields f E
      fun f' key => key.Suits f' false ∧ f.Fresh f' key.nodes := by
  refine yields_insertNode Forest.upheld_wellFormed h ?_ ?_
  · rintro f' members e - - ⟨hfit, hfresh⟩ herror
    rw [Forest.check_of_fresh hkind hvalue hfit hfresh] at herror
    cases herror
  · intro f' members hext _ f'' _ _ hnew _
    exact ⟨.node hnew.lt_size, (hnew.earlier hext).fresh⟩

/-- A standard pattern is built into a node that passes the check, on its own or laid over the node
of its key. -/
theorem yields_buildNode_suits {α : Type} {build : α → Option Key → Grow s RunError Key}
    {index : α → PatternId} {ps : PatternSet s} {p : PatternId} {kind : KindId}
    {value : Option Value} {members : List (Member α)} {key : Option Key} (hs : s.Built)
    (h : ∀ m ∈ members, ∀ q ∈ m.children, (Terms.suiting ps E).Builds build index f₀ q)
    (hstars : ∀ m ∈ members, m.StarsFit fun q => ps.isStar (index q)) (hkind : kind < s.size)
    (hvalue : value.isSome → s.isValued kind) (hmembers : MembersFit (s.layout kind) members)
    (hkey : ∀ k, key = some (.node k) → k < f.size) (hext : f₀.Extends f) (hf : f.WellFormed) :
    (buildNode build index p kind value members key).Yields f E
      fun f' key => key.Suits f' false ∧ f.Fresh f' key.nodes := by
  have ht : (Terms.suiting ps E).Lawful :=
    Terms.lawful_suiting (fits_default hs.wellFormed hs.size_pos)
  have hnoStar (q : α) (hq : .single (some q) ∈ members) : ps.isStar (index q) = false :=
    hstars _ hq q rfl
  refine yields_buildNode (fun k hk hsub => ?_) fun _ => ?_
  · have hlt := hkey k hk
    -- The kind of the node may be below that of the pattern: it has values if that has, and begins
    -- with the same members.
    have hvalued : (value.or (f.get k).value).isSome → s.isValued (f.get k).kind := by
      cases value with
      | none => exact (hf.get hlt).valued
      | some v => exact fun _ => hs.isValued_of_isSubkind hsub (hvalue rfl)
    have hfit : members.map Member.category <+: (f.get k).members.map Member.category := by
      rw [hmembers, (hf.get hlt).members]
      exact (hs.wellFormed.layout_isPrefix hsub).map _
    refine yields_insertNode_suits (hf.get hlt).kind_lt hvalued ((ht.yields_overlayMembers h
      (fun q hq => Terms.single_suiting (hnoStar q hq)) ?_ (.inl (by simpa using hfit.length_le))
      hext hf).imp ?_)
    · intro q child hq hchild
      have hlow : child < k :=
        f.child_lt_of_mem (List.mem_flatMap_of_mem hchild (by simp [Member.children]))
      change Key.Suits f (ps.isStar (index q)) (.node child)
      rw [hnoStar q hq]
      exact .node (Nat.lt_trans hlow hlt)
    · rintro f' mades - - ⟨hlength, hlaid, hfresh⟩
      exact ⟨(Member.map_category_of_laid hlength hlaid hfit).trans (hf.get hlt).members,
        hfresh hfit⟩
  · refine yields_insertNode_suits hkind hvalue ((ht.yields_buildMembers h
      (fun q hq => Terms.single_suiting (hnoStar q hq)) hext hf).imp ?_)
    rintro f' mades - - ⟨hmades, hfresh⟩
    refine ⟨Eq.trans ?_ hmembers, hfresh⟩
    rw [← List.forall₂_eq_eq_eq, List.forall₂_map_left_iff, List.forall₂_map_right_iff]
    exact hmades.flip

/-- A new node is put back at the end of a way. -/
theorem yields_rebuildAlong_suits {path : List Site} {top : Site} {child : NodeId} {f₁ : Forest s}
    (hf : f.WellFormed) (hext : f₀.Extends f₁) (hext' : f₁.Extends f)
    (hchain : path.IsChain (Site.Below f₀)) (hhead : path.head? = some top)
    (hpath : ∀ site ∈ path, site.node < f₀.size) (hchild : f₁.New f child) :
    (rebuildAlong path child).Yields f E fun f' y =>
      (Key.node y).Suits f' false ∧ f₁.Fresh f' [y] := by
  refine (yields_rebuildAlong (Q := fun _ f' y => f₁.New f' y) hf (fun _ _ => hchild) ?_).imp
    fun f' y _ _ h => ⟨.node (h top hhead).lt_size, (h top hhead).fresh⟩
  refine hchain.imp_of_mem_imp fun a b ha _ hbelow f' y hgrown hf' hy => ?_
  have hfrom := hext.trans (hext'.trans hgrown)
  refine (yields_withChild_alike (R := fun _ y => y < f'.size) hf' hfrom (hpath a ha) hbelow
    hy.lt_size (fun _ => id) (fun _ _ => id) (Nat.le_trans hext.size_le hy.size_le)).imp ?_
  exact fun f'' z _ _ hz => hz.2.earlier (hext'.trans hgrown)

/-- A terminus is built and put back at the end of the way on record. -/
theorem Terms.Builds.below_suits {α : Type} {build : α → Option Key → Grow s RunError Key}
    {index : α → PatternId} {ps : PatternSet s} {terminus : α}
    (h : (Terms.suiting ps E).Builds build index f₀ terminus)
    (hstar : ps.isStar (index terminus) = false) {p : PatternId} {path? : Option (List Site)}
    {key : Option Key}
    (hpath : ∀ sites ∈ path?, sites.IsChain (Site.Below f₀) ∧ ∀ site ∈ sites, site.node < f₀.size)
    (hunbound : E (.fault (.unboundWildcard p))) (hlost : E (.fault (.terminusLost p)))
    (hext : f₀.Extends f) (hf : f.WellFormed) :
    (buildBelow build index p terminus path? key).Yields f E
      fun f' key => key.Suits f' false ∧ f.Fresh f' key.nodes := by
  refine h.below (single_suiting hstar) hext hf (fun _ => hunbound) (fun _ _ _ => hlost) ?_
  intro x path f' bottom _ hsome hhead hext' hf' _ hbottom
  obtain ⟨hchain, hlt⟩ := hpath path hsome
  obtain ⟨top, htop, -⟩ := Option.map_eq_some_iff.mp hhead
  exact yields_rebuildAlong_suits hf' hext hext' hchain htop hlt hbottom.head

end Steps

/-! ## Patterns -/

theorem PatternSet.WellFormed.kind_lt {ps : PatternSet s} (hps : ps.WellFormed) (hpos : 0 < s.size)
    (p : PatternId) : (ps.pattern p).kind < s.size := by
  change (ps.get p).kind < s.size
  unfold get
  cases hn : ps.nodes[p]? with
  | none => exact hpos
  | some n => exact (hps p n hn).1

/-- The couplings of every search in the view are those of nodes of the forest. -/
def View.Grounded (ps : PatternSet s) (f : Forest s) (view : View) : Prop :=
  ∀ c ∈ view, c.Grounded ps f

namespace View.Grounded

variable {ps : PatternSet s} {f f' : Forest s} {view : View} {p : PatternId}

theorem later (h : view.Grounded ps f) (hext : f.Extends f') : view.Grounded ps f' :=
  fun c hc => (h c hc).later hext

theorem suits (h : view.Grounded ps f) {key : Key} (hp : view.get? p = some key) :
    key.Suits f (ps.isStar p) := by
  obtain ⟨c, hc, hget⟩ := List.exists_of_findSome?_eq_some hp
  exact (h c hc).suits p key hget

theorem ways (h : view.Grounded ps f) {path : List Site} (hp : view.path? p = some path)
    (hleads : (ps.pattern p).agent.leads = true) :
    path.IsChain (Site.Below f) ∧ ∀ site ∈ path, site.node < f.size := by
  obtain ⟨c, hc, hpath⟩ := List.exists_of_findSome?_eq_some hp
  exact (h c hc).ways p path hpath hleads

/-- What a pattern is rebuilt from suits it. -/
theorem suits_or (h : view.Grounded ps f) {star : Bool} (hstar : ps.isStar p = star)
    {base : Option Key} (hbase : ∀ key ∈ base, Key.Suits f star key) :
    ∀ key ∈ (view.get? p).or base, Key.Suits f star key := by
  intro key hkey
  rcases Option.or_eq_some_iff.mp hkey with hget | ⟨-, hget⟩
  · exact hstar ▸ h.suits hget
  · exact hbase key hget

end View.Grounded

namespace Workshop

variable {shop : Workshop s} {root : PatternId} {master : List PatternId} {view : View}

/-- The run of a slave, with its rebuild written out. -/
theorem run_make_eq (shop : Workshop s) (root : PatternId) (master : List PatternId) (view : View)
    (x : NodeId) :
    shop.run (RulePlan.make shop.patterns root master) view x =
      shop.rounds (RulePlan.make shop.patterns root master).search view
        (fun c => shop.build (RulePlan.make shop.patterns root master) (c :: view) root none >>=
          Grow.single root) x := by
  rw [run, RulePlan.root_make]
  rfl

/-- A slave is run over what was built for it.  The errors of its rounds are those of its run, whose
own slaves do not show any more. -/
theorem yields_buildSlave_suits (hs : s.Built) (hps : shop.patterns.WellFormed) {plan : RulePlan}
    {p slaveRoot : PatternId} (hp : p ∈ shop.patterns.rebuiltFrom root)
    (hplan : plan.slave? p = some (RulePlan.make shop.patterns slaveRoot master))
    (hstar : shop.patterns.isStar slaveRoot = false) (hbinds : view.Binds master)
    (hbuild : ∀ f' c,
      View.Binds (c :: view) ((Plan.make shop.patterns slaveRoot master).scope 0).keyed →
      View.Grounded shop.patterns f' (c :: view) →
      (Terms.suiting shop.patterns
        (shop.Fails (RulePlan.make shop.patterns slaveRoot master) (c :: view) slaveRoot f')).Builds
        (shop.build (RulePlan.make shop.patterns slaveRoot master) (c :: view)) id f' slaveRoot)
    {f f₀ f₁ : Forest s} {built : NodeId} (hext : f₀.Extends f) (hext₁ : f.Extends f₁)
    (hf₁ : f₁.WellFormed) (hview : view.Grounded shop.patterns f₁) (hbuilt : f.New f₁ built) :
    (shop.buildSlave view p (fun slavePlan c => shop.build slavePlan (c :: view) slaveRoot none >>=
      Grow.single slaveRoot) built (plan.slave? p)).Yields f₁ (shop.Fails plan view root f₀)
      fun f' key => key.Suits f' false ∧ f.Fresh f' key.nodes := by
  refine yields_buildSlave hf₁ (by simp [hplan]) fun slavePlan hslave => ?_
  obtain rfl := Option.some.inj (hplan.symm.trans hslave)
  have hrounds : (shop.rounds (RulePlan.make shop.patterns slaveRoot master).search view
      (fun c =>
        shop.build (RulePlan.make shop.patterns slaveRoot master) (c :: view) slaveRoot none >>=
          Grow.single slaveRoot) built).Yields f₁ (fun e => e.endsRun = true)
      fun f' applied => f.New f' applied.root := by
    refine yields_boundRounds (P := fun f' x => f.New f' x) hs.wellFormed hps hstar hbinds
      (fun _ hf => hf.wellShaped) (fun _ => rfl) (fun _ => rfl) ?_ hf₁ hbuilt
    intro f' x c hext' hf' hx hc hbound
    have hw : (⟨f', shop.patterns, f₁.size⟩ : Scene s).WellFormed :=
      ⟨hs.wellFormed, hf'.wellShaped, hps⟩
    have hcview : View.Grounded shop.patterns f' (c :: view) :=
      List.forall_mem_cons.mpr ⟨Scene.grounded_of_search hw hx.lt_size hc, hview.later hext'⟩
    have hfinal := Terms.single (Terms.single_suiting hstar)
      (hbuild f' c hbound hcview f' none (.refl f') hf' (by simp))
    exact hfinal.mono (fun e he => he.endsRun) fun f'' y _ _ hy =>
      hy.2.head.earlier (hext₁.trans hext')
  refine hrounds.traced.mono ?_ ?_
  · rintro e ⟨hends, f', hrun⟩
    exact .slave hp hplan (hext.trans hext₁) hbuilt.lt_size
      ((congrFun (shop.run_make_eq _ _ _ _) _).trans hrun) hends
  · rintro f₂ applied - - ⟨happlied, -⟩
    exact ⟨.node happlied.lt_size, happlied.fresh⟩

theorem builds_build (hs : s.Built) (hps : shop.patterns.WellFormed) {p : PatternId}
    (hp : p ∈ shop.patterns.rebuiltFrom root)
    (hbinds : view.Binds ((Plan.make shop.patterns root master).scope 0).keyed) {f₀ : Forest s}
    (hview : view.Grounded shop.patterns f₀) :
    (Terms.suiting shop.patterns
      (shop.Fails (RulePlan.make shop.patterns root master) view root f₀)).Builds
      (shop.build (RulePlan.make shop.patterns root master) view) id f₀ p := by
  induction p using Nat.strongRecOn generalizing root master view f₀ with
  | ind p ih =>
    have inner (q : Fin p) (hq : q ∈ (shop.patterns.pattern p).agent.rebuilt) :
        (Terms.suiting shop.patterns
          (shop.Fails (RulePlan.make shop.patterns root master) view root f₀)).Builds
          (fun (q : Fin p) => shop.build (RulePlan.make shop.patterns root master) view q.val)
          Fin.val f₀ q :=
      ih q.val q.isLt (PatternSet.mem_rebuiltFrom_of_mem_rebuilt hp hq) hbinds hview
    have hbare := fits_default hs.wellFormed hs.size_pos
    have hfits := hps.fits hs.wellFormed p
    intro f base hext hf hbase
    have hviewf := hview.later hext
    have hkey : ∀ key ∈ (view.get? p).or base, Key.Suits f (shop.patterns.isStar p) key :=
      hviewf.suits_or rfl hbase
    have hways (sites) (hsites : sites ∈ view.path? p) := hview.ways hsites
    change (shop.build _ view p base).Yields f _ fun f' key =>
      key.Suits f' (shop.patterns.isStar p) ∧ f.Fresh f' key.nodes
    rw [← PatternSet.isStar_pattern] at hkey ⊢
    rw [build]
    dsimp only
    generalize hagent : (shop.patterns.pattern p).agent = agent at hfits hkey hways inner ⊢
    cases agent with
    | standard value members =>
      obtain ⟨hvalue, hmembers, hstars⟩ := hfits
      refine yields_buildNode_suits hs (fun m hm q hq => inner q (List.mem_flatMap_of_mem hm hq))
        hstars (hps.kind_lt hs.size_pos p) hvalue hmembers (fun k hk => ?_) hext hf
      exact (hkey _ hk).lt_size k (by simp)
    | star restriction =>
      exact yields_buildRun hf (.unbound rfl) fun ordered items hrun =>
        (hkey _ hrun).yields_duplicateKey hbare hf
    | stuff terminus restriction =>
      exact (inner terminus (by simp [Agent.rebuilt])).below_suits
        (hfits terminus (by simp [Agent.children])) (fun sites hsites => hways sites hsites rfl)
        (.unbound rfl) (.unbound rfl) hext hf
    | anyNode terminus =>
      exact (inner terminus (by simp [Agent.rebuilt])).below_suits
        (hfits terminus (by simp [Agent.children])) (fun sites hsites => hways sites hsites rfl)
        (.unbound rfl) (.unbound rfl) hext hf
    | overlay through above =>
      have hthrough := hfits through (by simp [Agent.children])
      exact (inner above (by simp [Agent.rebuilt])).suits (hfits above (by simp [Agent.children]))
        hext hf (hviewf.suits_or hthrough hkey)
    | greenGrass through =>
      exact (inner through (by simp [Agent.rebuilt])).suits
        (hfits through (by simp [Agent.children])) hext hf hkey
    | notMatch q =>
      exact yields_buildCopy hf (fun _ => .unbound rfl) fun k hk =>
        (hkey k hk).yields_duplicateKey hbare hf
    | matchAll qs =>
      exact yields_buildCopy hf (fun _ => .unbound rfl) fun k hk =>
        (hkey k hk).yields_duplicateKey hbare hf
    | matchAny qs =>
      exact yields_buildCopy hf (fun _ => .unbound rfl) fun k hk =>
        (hkey k hk).yields_duplicateKey hbare hf
    | slave through slaveRoot =>
      have hthrough : shop.patterns.isStar through.val = false :=
        hfits through (by simp [Agent.children])
      have hstar : shop.patterns.isStar slaveRoot.val = false :=
        hfits slaveRoot (by simp [Agent.children])
      have hkey' : ∀ key ∈ (view.get? p).or base,
          Key.Suits f (shop.patterns.isStar through.val) key := by
        rw [hthrough]
        exact hkey
      refine ((inner through (by simp [Agent.rebuilt])).final (Terms.single_suiting hthrough) hext
        hf hkey').bind ?_
      rintro f₁ built hext₁ hf₁ ⟨-, hbuilt⟩
      refine yields_buildSlave_suits hs hps hp (RulePlan.slave?_make hp hagent) hstar hbinds ?_ hext
        hext₁ hf₁ (hviewf.later hext₁) hbuilt.head
      exact fun f' c hc hcview =>
        ih slaveRoot.val slaveRoot.isLt PatternSet.self_mem_rebuiltFrom hc hcview

/-- What a search has found is rebuilt at its root. -/
theorem yields_rebuild (shop : Workshop s) (hs : s.Built) (hps : shop.patterns.WellFormed)
    (hstar : shop.patterns.isStar root = false)
    (hbinds : view.Binds ((Plan.make shop.patterns root master).scope 0).keyed) {f : Forest s}
    (hf : f.WellFormed) (hview : view.Grounded shop.patterns f) :
    (buildFinal (shop.build (RulePlan.make shop.patterns root master) view) id root none).Yields f
      (shop.Fails (RulePlan.make shop.patterns root master) view root f) fun f' y => y < f'.size :=
  ((builds_build hs hps PatternSet.self_mem_rebuiltFrom hbinds hview).final
    (Terms.single_suiting hstar) (.refl f) hf (by simp)).imp fun _ _ _ _ h => h.2.head.lt_size

end Workshop

namespace Rule

variable {name : String} {patterns : PatternSet s} {search : PatternId} {replace : Option PatternId}
  {mode : Mode} {r : Rule s}

/-- What a search of a rule has found is rebuilt into a node of a well-formed forest, or else there
was nothing to build some pattern from or the run of a slave has failed: for the same reason, by its
search or by the cap.  No pattern comes out as a run of nodes where one is due, none is laid over a
node without its members, no slave is without its plan, and nothing that is put together offends
against the schema. -/
theorem rebuild_found (hs : s.Built) (hps : patterns.WellFormed)
    (hr : Rule.make name patterns search replace mode = .ok r) {f : Forest s} (hf : f.WellFormed)
    {x : NodeId} (hx : x < f.size) {watermark : Nat} {c : Couplings}
    (hfound : Scene.search ⟨f, r.patterns, watermark⟩ r.plan.search (.node x) [] = .ok (some c))
    (limits : Limits) :
    (∃ y f',
        buildFinal (Workshop.build ⟨r.patterns, r.name, limits⟩ r.plan [c]) id r.plan.root none f =
          .ok y f' ∧ f.Extends f' ∧ f'.WellFormed ∧ y < f'.size) ∨
      ∃ e f',
        buildFinal (Workshop.build ⟨r.patterns, r.name, limits⟩ r.plan [c]) id r.plan.root none f =
          .error e f' ∧ Workshop.Fails ⟨r.patterns, r.name, limits⟩ r.plan [c] r.plan.root f e ∧
        (∀ p, e ≠ .fault (.nonFinal p)) ∧ (∀ p y, e ≠ .fault (.itemise p y)) ∧
        (∀ p slot, e ≠ .fault (.missingPlan p slot)) ∧ ∀ e', e ≠ .fault (.schema e') := by
  obtain ⟨hps', root, hstar, hplan⟩ := exists_root_of_make hps hr
  rw [hplan, RulePlan.search_make] at hfound
  rw [hplan, RulePlan.root_make]
  have hw : (⟨f, r.patterns, watermark⟩ : Scene s).WellFormed :=
    ⟨hs.wellFormed, hf.wellShaped, hps'⟩
  have hbinds : View.Binds [] [] := fun q hq => (List.not_mem_nil hq).elim
  have hview : View.Grounded r.patterns f [c] :=
    List.forall_mem_singleton.mpr (Scene.grounded_of_search hw hx hfound)
  have hyields := Workshop.yields_rebuild ⟨r.patterns, r.name, limits⟩ hs hps' hstar
    (Scene.binds_of_search hw hstar hbinds hfound) hf hview
  generalize buildFinal (Workshop.build ⟨r.patterns, r.name, limits⟩
    (RulePlan.make r.patterns root []) [c]) id root none = rebuild at hyields
  cases hrun : rebuild f with
  | ok y f' => exact .inl ⟨y, f', rfl, hyields.of_ok hrun⟩
  | error e f' =>
    have hfails := (hyields.of_error hrun).2.2
    have hends := hfails.endsRun
    refine .inr ⟨e, f', rfl, hfails, ?_, ?_, ?_, ?_⟩
    all_goals
      intros
      rintro rfl
      cases hends

/-- The list at 5, with its elements for the star. -/
def wholeList : Couplings :=
  ⟨[(5, .run true [4, 3]), (6, .node 5), (7, .node 5), (9, .node 5)], []⟩

/-- One round is not enough for the slave, and the rebuild ends with its run. -/
theorem rebuild_found_trimCopy :
    trimCopy.find sharedLists 5 = .ok (some wholeList) ∧
      (∃ f',
        buildFinal
          (Workshop.build ⟨trimCopy.patterns, trimCopy.name, ⟨1, true⟩⟩ trimCopy.plan [wholeList])
          id trimCopy.plan.root none sharedLists = .error (.possiblyInfinite "trim copy" 1) f') ∧
      Workshop.Fails ⟨trimCopy.patterns, trimCopy.name, ⟨1, true⟩⟩ trimCopy.plan [wholeList]
        trimCopy.plan.root sharedLists (.possiblyInfinite "trim copy" 1) := by
  have hkeep : Rule.make "keep end" sameEnds 2 (some 0) .search = .ok keepEnd := rfl
  have hps :
      ((((keepEnd.patterns.push ⟨0, .star none⟩).push ⟨1, .standard none [.sequence [5]]⟩).push
      ⟨1, .greenGrass 6⟩).push ⟨1, .slave 6 4⟩).WellFormed :=
    ((((exists_root_of_make wellFormed_sameEnds hkeep).1.insert
      (rfl : PatternSet.insert _ 0 (.star none) = .ok _)).insert
      (rfl : PatternSet.insert _ 1 (.standard none [.sequence [5]]) = .ok _)).insert
      (rfl : PatternSet.insert _ 1 (.greenGrass 6) = .ok _)).insert
      (rfl : PatternSet.insert _ 1 (.slave 6 4) = .ok _)
  have hshared : sharedLists.WellFormed :=
    wellFormed_nestedLists.push (Forest.check_eq_ok_iff.mp (rfl : nestedLists.check _ = .ok ())).1
  have hfind : trimCopy.find sharedLists 5 = .ok (some wholeList) := by decide +kernel
  obtain ⟨f', hrun⟩ : ∃ f', buildFinal (Workshop.build ⟨trimCopy.patterns, trimCopy.name, ⟨1, true⟩⟩
      trimCopy.plan [wholeList]) id trimCopy.plan.root none sharedLists =
        .error (.possiblyInfinite "trim copy" 1) f' :=
    Grow.exists_of_catch (by decide +kernel)
  refine ⟨hfind, ⟨f', hrun⟩, ?_⟩
  obtain ⟨y, g, hok, -⟩ | ⟨e, g, herror, hfails, -⟩ :=
    rebuild_found (.define .base Scene.define_lists) hps
      (rfl : Rule.make "trim copy" _ 7 (some 8) .compare = .ok trimCopy) hshared (by decide) hfind
      ⟨1, true⟩
  · cases hrun.symm.trans hok
  · cases hrun.symm.trans herror
    exact hfails

end Rule

end Espalier
