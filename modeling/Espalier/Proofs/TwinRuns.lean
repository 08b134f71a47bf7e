import Espalier.Proofs.Exhaustion
import Espalier.Proofs.TwinRebuild

/-!
# Rewriting depends on the tree alone

Two runs of one rule on the same tree in two forests go side by side: round by round they find twins
and build twins of them, and where one of them fails the other one fails with the same error.  The
mark that tells the nodes of a run from older ones, and that of every slave in it, is one mark on
both sides.  What a run comes to can be told from the tree that it starts with; ids, sharing and the
rest of the forest do not matter.
-/

namespace Espalier

variable {s : Schema}

/-! ## Ways on record -/

/-- Whether the agent stands for a way down its subject. -/
def Agent.leads {α : Type} : Agent α → Bool
  | .stuff .. | .anyNode _ => true
  | _ => false

/-- What stands for a way down is coupled to the node where its way starts. -/
def Couplings.Trailed (ps : PatternSet s) (c : Couplings) : Prop :=
  ∀ p key, c.get? p = some key → (ps.pattern p).agent.leads = true →
    ∃ x sites, key = .node x ∧ c.path? p = some sites ∧ sites.head?.map Site.node = some x

/-- What stands for a way down is held against a node, and decides on the way to one of the sites
below it. -/
theorem Scene.Decides.exists_pathTo {scene : Scene s} {p : PatternId} {key : Key}
    {links : List (DecidedLink (Fin p))} {path : Option (List Site)}
    (h : scene.Decides p key links path) (hleads : (scene.patterns.pattern p).agent.leads = true) :
    ∃ x i site, key = .node x ∧ (scene.forest.preorder x)[i]? = some site ∧
      path = some (pathTo (scene.forest.preorder x) i) := by
  cases key with
  | run ordered items =>
    obtain ⟨restriction, hagent, -⟩ := h
    rw [hagent] at hleads
    cases hleads
  | node x =>
    obtain ⟨-, hoffers⟩ := h
    generalize (scene.patterns.pattern p).agent = agent at hleads hoffers
    cases agent with
    | stuff terminus restriction =>
      obtain ⟨i, site, hsite, -, hpath⟩ := hoffers
      exact ⟨x, i, site, rfl, hsite, hpath⟩
    | anyNode terminus =>
      obtain ⟨i, site, hsite, -, -, hpath⟩ := hoffers
      exact ⟨x, i, site, rfl, hsite, hpath⟩
    | _ => cases hleads

theorem Scene.trailed_of_searchFor {scene : Scene s} (hw : scene.WellFormed) {root : PatternId}
    {plan : Plan} {subject : Key} {view : View} {c : Couplings}
    (h : scene.searchFor root plan subject view = .ok (some c)) : c.Trailed scene.patterns := by
  rw [searchFor] at h
  obtain ⟨pr, pr', hkey, hrestrict, rfl⟩ := gives_attempt.mp (Walk.gives_of_solve_eq_some h)
  obtain ⟨hruns, -, -⟩ := gives_restrict.mp hrestrict
  obtain ⟨-, hsettled⟩ := settled_attempt hw scene.inherited_true trivial hkey hruns
  intro p key hp hleads
  obtain ⟨-, links, ⟨path, hd, hpath, -⟩, -⟩ := hsettled p key hp
  obtain ⟨x, i, site, rfl, hsite, rfl⟩ := hd.exists_pathTo hleads
  refine ⟨x, _, rfl, hpath _ rfl, ?_⟩
  rw [(Forest.isChain_pathTo hsite).1]
  rfl

theorem Site.Twins.mono {P P' : ForestPair s} {site site' : Site} (h : site.Twins P site')
    (hP : ∀ a b, P.Twins a b → P'.Twins a b) : site.Twins P' site' :=
  ⟨hP _ _ h.node, h.parent_eq, h.member_eq, h.position_eq⟩

theorem Couplings.Twins.mono {P P' : ForestPair s} {c c' : Couplings} (h : c.Twins P c')
    (hP : ∀ a b, P.Twins a b → P'.Twins a b) : c.Twins P' c' where
  keys := h.keys.imp fun _ _ he => ⟨he.1, he.2.mono hP⟩
  paths := h.paths.imp fun _ _ he => ⟨he.1, he.2.imp fun _ _ hsite => hsite.mono hP⟩
  keyed := h.keyed

/-- Views of twins that have come from searches. -/
structure View.TwinTrails (ps : PatternSet s) (P : ForestPair s) (view view' : View) : Prop where
  twins : View.Twins P view view'
  left : ∀ c ∈ view, c.Trailed ps
  right : ∀ c ∈ view', c.Trailed ps

namespace View.TwinTrails

variable {ps : PatternSet s} {P P' : ForestPair s} {view view' : View} {p : PatternId}

theorem nil : View.TwinTrails ps P [] [] := ⟨.nil, List.forall_mem_nil _, List.forall_mem_nil _⟩

theorem mono (h : View.TwinTrails ps P view view') (hP : ∀ a b, P.Twins a b → P'.Twins a b) :
    View.TwinTrails ps P' view view' :=
  ⟨h.twins.imp fun _ _ hc => hc.mono hP, h.left, h.right⟩

/-- A pattern that stands for a way down is coupled with its way on both sides, or on none. -/
theorem path_cases (h : View.TwinTrails ps P view view') (hp : (ps.pattern p).agent.leads = true) :
    (view.get? p = none ∧ view'.get? p = none ∧ view.path? p = none ∧ view'.path? p = none) ∨
      ∃ x x' sites sites', view.get? p = some (.node x) ∧ view'.get? p = some (.node x') ∧
        view.path? p = some sites ∧ view'.path? p = some sites' ∧
        sites.head?.map Site.node = some x ∧ sites'.head?.map Site.node = some x' ∧
        List.Forall₂ (Site.Twins P) sites sites' := by
  obtain ⟨htwins, hleft, hright⟩ := h
  induction htwins with
  | nil => exact .inl ⟨rfl, rfl, rfl, rfl⟩
  | @cons c c' view view' hc _ ih =>
    rw [List.forall_mem_cons] at hleft hright
    have hget := hc.get? p
    have hpath := hc.path? p
    simp only [View.get?, View.path?, List.findSome?_cons]
    cases hl : c.get? p with
    | none =>
      -- What is not coupled in a store has no way there either.
      have hlpath : c.path? p = none := by
        rw [← Option.not_isSome_iff_eq_none]
        intro hway
        have hkeyed := hc.keyed p hway
        rw [hl] at hkeyed
        cases hkeyed
      rw [hl] at hget
      rw [hlpath] at hpath
      have hr := eq_none_of_rel hget
      have hrpath := eq_none_of_rel hpath
      rw [hr, hlpath, hrpath]
      exact ih hleft.2 hright.2
    | some key =>
      obtain ⟨x, sites, rfl, hlpath, hhead⟩ := hleft.1 p key hl hp
      cases hr : c'.get? p with
      | none =>
        rw [hl, hr] at hget
        cases hget
      | some key' =>
        obtain ⟨x', sites', rfl, hrpath, hhead'⟩ := hright.1 p key' hr hp
        rw [hlpath, hrpath] at hpath ⊢
        cases hpath with
        | some hsites =>
          exact .inr ⟨x, x', sites, sites', rfl, rfl, rfl, rfl, hhead, hhead', hsites⟩

end View.TwinTrails

/-! ## Rounds -/

theorem View.TwinTrails.search (hs : s.WellFormed) {ps : PatternSet s} (hps : ps.WellFormed)
    {P : ForestPair s} (hP : P.Ready) {view view' : View} (hview : View.TwinTrails ps P view view')
    {w w' : Nat} (hmark : (w, w') ∈ P.marks) (plan : Plan) {x y : NodeId} (hxy : P.Twins x y) :
    Walk.SolvesAlike (fun c c' => View.TwinTrails ps P (c :: view) (c' :: view'))
      (Scene.search ⟨P.left, ps, w⟩ plan (.node x) view)
      (Scene.search ⟨P.right, ps, w'⟩ plan (.node y) view') := by
  have hleft : (⟨P.left, ps, w⟩ : Scene s).WellFormed := ⟨hs, hP.left.wellShaped, hps⟩
  have hright : (⟨P.right, ps, w'⟩ : Scene s).WellFormed := ⟨hs, hP.right.wellShaped, hps⟩
  have hscenes : Scene.Twins P ⟨P.left, ps, w⟩ ⟨P.right, ps, w'⟩ :=
    ⟨rfl, rfl, rfl, hmark, hleft, hright⟩
  have hsolve : Walk.SolvesAlike (Couplings.Twins P)
      (Scene.searchFor ⟨P.left, ps, w⟩ plan.root plan (.node x) view)
      (Scene.searchFor ⟨P.right, ps, w'⟩ plan.root plan (.node y) view') :=
    hscenes.searchFor (.node hxy) hview.twins
  rw [Scene.search, Scene.search]
  generalize hl : Scene.searchFor ⟨P.left, ps, w⟩ plan.root plan (.node x) view = found at hsolve
  generalize hr : Scene.searchFor ⟨P.right, ps, w'⟩ plan.root plan (.node y) view' =
    found' at hsolve
  cases hsolve with
  | error e => exact .error e
  | none => exact .none
  | some hc =>
    refine .some ⟨.cons hc hview.twins, ?_, ?_⟩
    · exact List.forall_mem_cons.mpr ⟨Scene.trailed_of_searchFor hleft hl, hview.left⟩
    · exact List.forall_mem_cons.mpr ⟨Scene.trailed_of_searchFor hright hr, hview.right⟩

/-- Rounds that find and rebuild alike come to twins after the same number of hits. -/
theorem Grow.abreast_rounds {find find' : Forest s → NodeId → Except Fault (Option Couplings)}
    {rebuild rebuild' : Couplings → Grow s RunError NodeId}
    {R : ForestPair s → Couplings → Couplings → Prop}
    (P₀ : ForestPair s) {P : ForestPair s} {n n' : Nat}
    (hfind : ∀ P x y, P₀.Extends P → P.Ready → P.Twins x y →
      Walk.SolvesAlike (R P) (find P.left x) (find' P.right y))
    (hrebuild : ∀ P c c', P₀.Extends P → R P c c' →
      (rebuild c).GrowTwins (rebuild' c') P ([·]) fun P => P.Twins)
    (hn : n ≤ P₀.left.size) (hn' : n' ≤ P₀.right.size) (rule : String) (strict : Bool)
    (left hits : Nat) {x y : NodeId} (hext : P₀.Extends P) (hP : P.Ready)
    (hxy : P.TwinsFrom n n' x y) :
    (rounds find rebuild rule strict left hits x).Abreast
      (rounds find' rebuild' rule strict left hits y) P
      fun P' a b => a.hits = b.hits ∧ P'.TwinsFrom n n' a.root b.root := by
  induction left generalizing hits x y P with
  | zero =>
    have hsolve := hfind P x y hext hP hxy.twins
    rw [rounds, rounds]
    refine .get ?_
    generalize find P.left x = found at hsolve ⊢
    generalize find' P.right y = found' at hsolve ⊢
    cases hsolve with
    | error e => exact .throw _
    | none => exact .pure hP ⟨rfl, hxy⟩
    | some _ =>
      dsimp only
      split
      · exact .throw _
      · exact .pure hP ⟨rfl, hxy⟩
  | succ left ih =>
    have hsolve := hfind P x y hext hP hxy.twins
    rw [rounds, rounds]
    refine .get ?_
    generalize find P.left x = found at hsolve ⊢
    generalize find' P.right y = found' at hsolve ⊢
    cases hsolve with
    | error e => exact .throw _
    | none => exact .pure hP ⟨rfl, hxy⟩
    | some hc =>
      refine (hrebuild P _ _ hext hc P (.refl P) hP).bind ?_
      rintro P' z z' hext' hP' ⟨hz, hfresh⟩
      refine ih (hits + 1) (hext.trans hext') hP' ((hfresh.twinsFrom hz).earlier ?_ ?_)
      · exact Nat.le_trans hn hext.left.size_le
      · exact Nat.le_trans hn' hext.right.size_le

/-! ## Patterns -/

section Build

variable {α : Type} {build build' : α → Option Key → Grow s RunError Key} {index : α → PatternId}
  {ps : PatternSet s} {P₀ : ForestPair s} {view view' : View} {p : PatternId}
  {base base' : Option Key}

/-- Ways down to a match are built again, unless they have been lost on both sides. -/
theorem growTwins_buildBelow (h : BuildTwins build build' P₀)
    (hview : View.TwinTrails ps P₀ view view') (hp : (ps.pattern p).agent.leads = true)
    (hbase : Option.Rel (Key.Twins P₀) base base') (terminus : α) :
    (buildBelow build index p terminus (view.path? p) ((view.get? p).or base)).GrowTwins
      (buildBelow build' index p terminus (view'.path? p) ((view'.get? p).or base')) P₀ Key.nodes
      fun P => Key.Twins P := by
  rcases hview.path_cases hp with ⟨hl, hr, hlpath, hrpath⟩ |
    ⟨x, x', sites, sites', hl, hr, hlpath, hrpath, hhead, hhead', hsites⟩
  · rw [hl, hr, hlpath, hrpath, Option.none_or, Option.none_or]
    cases hbase with
    | none => exact .fault _
    | some hkey =>
      cases hkey with
      | node _ => exact .fault _
      | run _ => exact .fault _
  · rw [hl, hr, hlpath, hrpath, Option.some_or, Option.some_or]
    rw [buildBelow_of_head hhead, buildBelow_of_head hhead']
    intro P hext hP
    refine (growTwins_buildFinal h terminus .none P hext hP).bind ?_
    rintro P₁ c d hext₁ hP₁ ⟨hcd, hfresh⟩
    have hsitesP : List.Forall₂ (Site.Twins P) sites sites' :=
      hsites.imp fun _ _ hsite => hsite.mono fun _ _ => hext.twins
    refine (abreast_rebuildAlong hsitesP hext₁ hP₁ (hfresh.twinsFrom hcd)).bind ?_
    intro P₂ z z' _ hP₂ hz
    exact .pure hP₂ ⟨.node hz.twins, hz.fresh⟩

theorem growTwins_buildRun {key key' : Option Key} (p : PatternId)
    (hkey : Option.Rel (Key.Twins P₀) key key') :
    (buildRun p key : Grow s RunError Key).GrowTwins (buildRun p key') P₀ Key.nodes
      fun P => Key.Twins P := by
  cases hkey with
  | none => exact .fault _
  | some hkey =>
    cases hkey with
    | node _ => exact .fault _
    | run h => exact .duplicateKey (.run h)

theorem growTwins_buildCopy {key key' : Option Key} (p : PatternId)
    (hkey : Option.Rel (Key.Twins P₀) key key') :
    (buildCopy p key : Grow s RunError Key).GrowTwins (buildCopy p key') P₀ Key.nodes
      fun P => Key.Twins P := by
  cases hkey with
  | none => exact .fault _
  | some hkey => exact .duplicateKey hkey

/-- Twins are of one kind, and so a pattern is laid over both or none. -/
theorem rel_subject {P : ForestPair s} {key key' : Option Key}
    (h : Option.Rel (Key.Twins P) key key') (kind : KindId) :
    Option.Rel (fun x y => P.Twins x y ∧ s.isSubkind (P.left.get x).kind kind = true)
      ((key.bind Key.node?).filter fun k => s.isSubkind (P.left.get k).kind kind)
      ((key'.bind Key.node?).filter fun k => s.isSubkind (P.right.get k).kind kind) := by
  cases h with
  | none => exact .none
  | some h =>
    cases h with
    | run _ => exact .none
    | @node x y hxy =>
      simp only [Option.bind_some, Key.node?, Option.filter_some, ← hxy.get.kind_eq]
      split
      next hkind => exact .some ⟨hxy, hkind⟩
      next => exact .none

/-- Nodes with new members that are twins pass the schema alike, and are twins themselves. -/
theorem growTwins_insert {ms ms' : Grow s RunError (List (Member NodeId))} (kind : KindId)
    (value : Option Value)
    (h : ms.GrowTwins ms' P₀ (·.flatMap Member.children) fun P =>
      List.Forall₂ (Member.Parallel P.Twins)) :
    Grow.GrowTwins
      (do
        let members ← ms
        return Key.node (← Grow.orFault (Grow.insert { kind, value, members })))
      (do
        let members ← ms'
        return Key.node (← Grow.orFault (Grow.insert { kind, value, members }))) P₀ Key.nodes
      fun P => Key.Twins P := by
  refine h.bind ?_
  intro P members members' _ hmembers hnodup hnodup'
  have hnode : (⟨kind, value, members⟩ : Node NodeId).Parallel P.Twins ⟨kind, value, members'⟩ :=
    ⟨rfl, rfl, hmembers⟩
  have hinsert := Grow.GrowTwins.insert hnode (Node.unrepeated_of_nodup hnodup)
    (Node.unrepeated_of_nodup hnodup')
  refine hinsert.map ?_
  intro P y y' _ hy _ _
  exact ⟨.node hy, rfl, rfl⟩

theorem growTwins_buildNode (h : BuildTwins build build' P₀) {key key' : Option Key}
    (hkey : Option.Rel (Key.Twins P₀) key key') {kind : KindId} {value : Option Value}
    {members : List (Member α)}
    (hfit : ∀ (f : Forest s) k, f.WellFormed → s.isSubkind (f.get k).kind kind = true →
      members.map Member.category <+: (f.get k).members.map Member.category) :
    (buildNode build index p kind value members key).GrowTwins
      (buildNode build' index p kind value members key') P₀ Key.nodes fun P => Key.Twins P := by
  intro P hext hP
  have hbuild := h.later hext
  have hfound := rel_subject (rel_mono hkey fun _ _ h => h.mono fun _ _ => hext.twins) kind
  refine .get ?_
  generalize Option.filter _ (key.bind Key.node?) = found at hfound ⊢
  generalize Option.filter _ (key'.bind Key.node?) = found' at hfound ⊢
  cases hfound with
  | none =>
    exact growTwins_insert _ _ (growTwins_buildMembers index hbuild members) P (.refl P) hP
  | @some x y hxy =>
    obtain ⟨htwins, hkind⟩ := hxy
    dsimp only
    rw [← htwins.get.kind_eq, ← htwins.get.value_eq]
    exact growTwins_insert _ _ (growTwins_overlayMembers hbuild htwins.get.members
      (hfit P.left x hP.left hkind)) P (.refl P) hP

end Build

namespace Workshop

variable {shop : Workshop s} {P₀ P : ForestPair s} {view view' : View} {n n' : Nat}

/-- Rounds of a rule from twins on, which are marked as old for them. -/
theorem abreast_rounds (hs : s.WellFormed) (hps : shop.patterns.WellFormed) (hP : P.Ready)
    (hview : View.TwinTrails shop.patterns P view view') (hn : n ≤ P.left.size)
    (hn' : n' ≤ P.right.size) {rebuild rebuild' : Couplings → Grow s RunError NodeId}
    (hrebuild : ∀ P c c', View.TwinTrails shop.patterns P (c :: view) (c' :: view') →
      (rebuild c).GrowTwins (rebuild' c') P ([·]) fun P => P.Twins)
    (plan : Plan) {x y : NodeId} (hxy : P.TwinsFrom n n' x y) :
    (shop.rounds plan view rebuild x).Abreast (shop.rounds plan view' rebuild' y) P
      fun P' a b => a.hits = b.hits ∧ P'.TwinsFrom n n' a.root b.root := by
  have hfind (P' : ForestPair s) (x y : NodeId) (hext : P.mark.Extends P') (hP' : P'.Ready)
      (hxy : P'.Twins x y) :
      Walk.SolvesAlike (fun c c' => View.TwinTrails shop.patterns P' (c :: view) (c' :: view'))
        (Scene.search ⟨P'.left, shop.patterns, P.left.size⟩ plan (.node x) view)
        (Scene.search ⟨P'.right, shop.patterns, P.right.size⟩ plan (.node y) view') := by
    refine View.TwinTrails.search hs hps hP' (hview.mono fun _ _ h => hext.twins h.mark) ?_ plan hxy
    rw [hext.marks_eq]
    exact List.mem_cons_self
  have hstart : P.mark.TwinsFrom n n' x y := ⟨hxy.twins.mark, hxy.left_le, hxy.right_le⟩
  refine .get (.unmark (Grow.abreast_rounds P.mark hfind (fun P' c c' _ => hrebuild P' c c') hn hn'
    shop.rule shop.limits.strict shop.limits.maxRepetitions 0 (.refl P.mark) hP.mark hstart) ?_)
  rintro f g a b ⟨hhits, hroots⟩
  exact ⟨hhits, hroots.twins.forget, hroots.left_le, hroots.right_le⟩

/-- One pattern on twins makes twins. -/
theorem growTwins_build (hs : s.WellFormed) (hps : shop.patterns.WellFormed) (plan : RulePlan)
    (hview : View.TwinTrails shop.patterns P₀ view view') (p : PatternId) {base base' : Option Key}
    (hbase : Option.Rel (Key.Twins P₀) base base') :
    (shop.build plan view p base).GrowTwins (shop.build plan view' p base') P₀ Key.nodes
      fun P => Key.Twins P := by
  induction p using Nat.strongRecOn generalizing plan view view' base base' P₀ with
  | ind p ih =>
    have inner : BuildTwins (fun (q : Fin p) base => shop.build plan view q.val base)
        (fun (q : Fin p) base => shop.build plan view' q.val base) P₀ := by
      intro P hext q base base' hbase
      exact ih q.val q.isLt plan (hview.mono fun _ _ => hext.twins) hbase
    have hkey := rel_or (hview.twins.get? p) hbase
    have hfits := hps.fits hs p
    rw [build, build]
    dsimp only
    cases hagent : (shop.patterns.pattern p).agent with
    | standard value members =>
      rw [hagent] at hfits
      refine growTwins_buildNode inner hkey fun f k hf hkind => ?_
      rw [hfits.2.1, hf.wellShaped.get hs k]
      exact (hs.layout_isPrefix hkind).map _
    | star restriction => exact growTwins_buildRun p hkey
    | stuff terminus restriction =>
      exact growTwins_buildBelow inner hview (by rw [hagent]; rfl) hbase terminus
    | anyNode terminus =>
      exact growTwins_buildBelow inner hview (by rw [hagent]; rfl) hbase terminus
    | overlay through above => exact inner.start above (rel_or (hview.twins.get? through.val) hkey)
    | greenGrass through => exact inner.start through hkey
    | notMatch q => exact growTwins_buildCopy p hkey
    | matchAll qs => exact growTwins_buildCopy p hkey
    | matchAny qs => exact growTwins_buildCopy p hkey
    | slave through root =>
      -- What is built first is marked as old for the rounds of the slave, and is new to the
      -- rebuild.
      intro P hext hP
      refine (growTwins_buildFinal inner through hkey P hext hP).bind ?_
      rintro P₁ built built' hext₁ hP₁ ⟨hbuilt, hfresh⟩
      cases plan.slave? p with
      | none => exact .throw _
      | some slavePlan =>
        have hview₁ : View.TwinTrails shop.patterns P₁ view view' :=
          hview.mono fun _ _ => (hext.trans hext₁).twins
        refine (abreast_rounds hs hps hP₁ hview₁ hext₁.left.size_le hext₁.right.size_le ?_ _
          (hfresh.twinsFrom hbuilt)).bind ?_
        · intro P' c c' hc
          exact growTwins_single (ih root.val root.isLt slavePlan hc .none) _
        · rintro P₂ a b _ hP₂ ⟨-, hroots⟩
          exact .pure hP₂ ⟨.node hroots.twins, hroots.fresh⟩

theorem abreast_run (hs : s.WellFormed) (hps : shop.patterns.WellFormed) (plan : RulePlan)
    (hP : P.Ready) {x y : NodeId} (hxy : P.Twins x y) :
    (shop.run plan [] x).Abreast (shop.run plan [] y) P
      fun P' a b => a.hits = b.hits ∧ P'.Twins a.root b.root := by
  refine (abreast_rounds hs hps hP .nil (Nat.zero_le _) (Nat.zero_le _) ?_ plan.search
    ⟨hxy, Nat.zero_le _, Nat.zero_le _⟩).mono ?_
  · intro P' c c' hc
    have hbuild : BuildTwins (shop.build plan [c]) (shop.build plan [c']) P' :=
      fun P'' hext p base base' => growTwins_build hs hps plan (hc.mono fun _ _ => hext.twins) p
    exact growTwins_buildFinal hbuild plan.root .none
  · rintro P' a b _ ⟨hhits, hroots⟩
    exact ⟨hhits, hroots.twins⟩

end Workshop

/-! ## Rules -/

namespace Rule

/-- What a rule finds and does below a node depends on the tree there alone: not on ids, on what is
shared in it or on the rest of the forest.  On the same tree in two forests both searches find
something or none does, and both runs fail with the same error, or come to the same tree with as
many hits.  A tree names its kinds and members, which a schema that is defined kind by kind keeps
apart. -/
theorem apply_of_treeAt_eq (hs : s.WellFormed) (hdistinct : s.Distinct) (r : Rule s)
    (hps : r.patterns.WellFormed) (limits : Limits) {f g : Forest s} (hf : f.WellFormed)
    (hg : g.WellFormed) {a b : NodeId} (ha : a < f.size) (hb : b < g.size)
    (h : f.treeAt a = g.treeAt b) :
    (r.find f a).map Option.isSome = (r.find g b).map Option.isSome ∧
    ((∃ e f' g', r.apply limits a f = .error e f' ∧ r.apply limits b g = .error e g') ∨
      ∃ x y f' g', r.apply limits a f = .ok x f' ∧ r.apply limits b g = .ok y g' ∧
        x.hits = y.hits ∧ f'.treeAt x.root = g'.treeAt y.root) := by
  have hready : (⟨f, g, []⟩ : ForestPair s).Ready := ⟨hf, hg, List.forall_mem_nil _⟩
  have htwins := ForestPair.twins_of_treeAt_eq hdistinct hf hg ha hb h
  refine ⟨?_, ?_⟩
  · have hsolve : Walk.SolvesAlike _ (r.find f a) (r.find g b) :=
      View.TwinTrails.search hs hps hready.mark .nil List.mem_cons_self r.plan.search htwins.mark
    generalize r.find f a = found at hsolve ⊢
    generalize r.find g b = found' at hsolve ⊢
    cases hsolve <;> rfl
  · have hrun : Grow.Abreast (r.apply limits a) (r.apply limits b) ⟨f, g, []⟩ _ :=
      Workshop.abreast_run hs hps r.plan hready htwins
    rcases hrun with ⟨e, f', g', hl, hr⟩ | ⟨x, y, P, hl, hr, -, -, hhits, hroots⟩
    · exact .inl ⟨e, f', g', hl, hr⟩
    · exact .inr ⟨x, y, P.left, P.right, hl, hr, hhits, hroots.treeAt_eq⟩

/-- A list that holds one empty list twice. -/
def emptyTwice : Forest Scene.lists :=
  (Forest.empty.push ⟨1, none, [.sequence []]⟩).push ⟨1, none, [.sequence [0, 0]]⟩

/-- A list of two empty lists, after a node that is no part of it. -/
def emptyApart : Forest Scene.lists :=
  (((Forest.empty.push ⟨0, none, []⟩).push ⟨1, none, [.sequence []]⟩).push
    ⟨1, none, [.sequence []]⟩).push ⟨1, none, [.sequence [1, 2]]⟩

/-- Both occurrences of the one empty list are wrapped, and so are the two. -/
theorem apply_of_treeAt_eq_wrapEmpty :
    emptyTwice.treeAt 1 = emptyApart.treeAt 3 ∧
      (wrapEmpty.find emptyApart 3).map Option.isSome = .ok true ∧
      ∃ f' g', wrapEmpty.apply .standard 1 emptyTwice = .ok ⟨7, 2⟩ f' ∧
        wrapEmpty.apply .standard 3 emptyApart = .ok ⟨9, 2⟩ g' ∧ f'.treeAt 7 = g'.treeAt 9 := by
  have fits {f : Forest Scene.lists} {n : Node NodeId} (h : f.check n = .ok ()) :
      n.Fits Scene.lists :=
    (Forest.check_eq_ok_iff.mp h).1
  have htwice : emptyTwice.WellFormed :=
    (Forest.wellFormed_empty.push (fits (f := .empty) rfl)).push (fits (f := emptyTwice) rfl)
  have hapart : emptyApart.WellFormed :=
    (((Forest.wellFormed_empty.push (fits (f := .empty) rfl)).push (fits (f := .empty) rfl)).push
      (fits (f := .empty) rfl)).push (fits (f := emptyApart) rfl)
  have hpatterns : wrapEmpty.patterns.WellFormed :=
    (exists_root_of_make wellFormed_emptyLists
      (rfl : Rule.make "wrap empty" emptyLists 1 (some 2) .search = .ok wrapEmpty)).1
  -- The empty list that is there twice is a twin of each of the two.
  have hempty (b : NodeId) (hb : b < 4) (hget : emptyApart.get b = ⟨1, none, [.sequence []]⟩) :
      (⟨emptyTwice, emptyApart, []⟩ : ForestPair Scene.lists).Twins 0 b := by
    refine ForestPair.twins_iff.mpr ⟨by decide, hb, List.forall_mem_nil _, ?_⟩
    rw [hget]
    exact ⟨rfl, rfl, .cons (.sequence .nil) .nil⟩
  have hlists : (⟨emptyTwice, emptyApart, []⟩ : ForestPair Scene.lists).Twins 1 3 := by
    refine ForestPair.twins_iff.mpr ⟨by decide, by decide, List.forall_mem_nil _, rfl, rfl, ?_⟩
    exact .cons
      (.sequence (.cons (hempty 1 (by decide) rfl) (.cons (hempty 2 (by decide) rfl) .nil))) .nil
  have hfind : (wrapEmpty.find emptyTwice 1).map Option.isSome = .ok true := by decide +kernel
  have happly : (wrapEmpty.apply .standard 1).run' emptyTwice = some ⟨7, 2⟩ := by decide +kernel
  have happly' : (wrapEmpty.apply .standard 3).run' emptyApart = some ⟨9, 2⟩ := by decide +kernel
  obtain ⟨f', hrun⟩ := Grow.exists_of_run'_eq_some happly
  obtain ⟨g', hrun'⟩ := Grow.exists_of_run'_eq_some happly'
  obtain ⟨hsame, hruns⟩ := apply_of_treeAt_eq (Schema.wellFormed_base.define Scene.define_lists)
    (Schema.Built.base.define Scene.define_lists).distinct wrapEmpty hpatterns .standard htwice
    hapart (by decide) (by decide) hlists.treeAt_eq
  refine ⟨hlists.treeAt_eq, hsame.symm.trans hfind, f', g', hrun, hrun', ?_⟩
  rcases hruns with ⟨e, f₁, g₁, herror, -⟩ | ⟨x, y, f₁, g₁, hx, hy, -, htrees⟩
  · rw [hrun] at herror
    cases herror
  · rw [hrun] at hx
    rw [hrun'] at hy
    cases hx
    cases hy
    exact htrees

end Rule

end Espalier
