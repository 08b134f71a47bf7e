import Espalier.Proofs.BuiltSchema
import Espalier.Proofs.Overlay

/-!
# Material that is new throughout

A pattern whose rebuild is made of its parts alone shares nothing with what was there before, and
nothing within itself.  What it builds is planted: the nodes below it are the nodes that were
appended meanwhile, all of them, and every one occurs there once.  That is more than newness of what
is returned, and it is what can be put together: materials that are planted one after the other are
planted together, and a node that is put on top of planted children is planted in their stead.  So
is a copy, which carries the same tree as the node that it is made of.
-/

namespace Espalier

variable {s : Schema}

/-! ## Walks over subtrees -/

namespace Forest

variable {f f' : Forest s} {x y : NodeId}

theorem Way.mem_nodesFrom {above : List NodeId} (h : f.Way x above y) : y ∈ f.nodesFrom x := by
  induction h with
  | refl => exact f.self_mem_nodesFrom x
  | step _ hz ih => exact child_mem_nodesFrom ih hz

theorem map_node_walkFrom (stack : List Site) (sites : Array Site) :
    (f.walkFrom stack sites).toList.map Site.node =
      sites.toList.map Site.node ++ stack.flatMap fun site => f.nodesFrom site.node := by
  fun_induction f.walkFrom stack sites with
  | case1 sites => simp
  | case2 sites site stack ih =>
    have hchildren : (f.childSites site.node sites.size).flatMap
        (fun site => f.nodesFrom site.node) = (f.children site.node).flatMap f.nodesFrom := by
      rw [← f.map_node_childSites site.node sites.size, List.flatMap_map]
    rw [ih, Array.toList_push, List.map_append, List.flatMap_append, hchildren, List.flatMap_cons,
      f.nodesFrom_eq site.node]
    simp

/-- A walk over a subtree meets its nodes. -/
theorem map_node_preorder (f : Forest s) (x : NodeId) :
    (f.preorder x).toList.map Site.node = f.nodesFrom x := by
  rw [preorder, map_node_walkFrom]
  simp

theorem length_nodesFrom (f : Forest s) (x : NodeId) :
    (f.nodesFrom x).length = f.occurrences x := by
  induction x using Nat.strongRecOn with
  | ind x ih =>
    rw [nodesFrom_eq, occurrences_eq, List.length_cons, length_flatMap, Nat.add_comm]
    congr 2
    exact List.map_congr_left fun c hc => ih c (f.child_lt_of_mem hc)

theorem size_preorder (f : Forest s) (x : NodeId) : (f.preorder x).size = f.occurrences x := by
  rw [← length_nodesFrom, ← map_node_preorder, List.length_map, Array.length_toList]

/-- All that is below `xs` came in after `f`, and no node occurs there twice. -/
structure Anew (f f' : Forest s) (xs : List NodeId) : Prop where
  size_le : ∀ x ∈ xs, ∀ above z, f'.Way x above z → f.size ≤ z
  nodup : (xs.flatMap fun x => (f'.preorder x).toList.map Site.node).Nodup

theorem Planted.anew {xs : List NodeId} (h : f.Planted f' xs) : f.Anew f' xs where
  size_le x hx above z hz := (h.new hx hz.mem_nodesFrom).size_le
  nodup := by
    simp only [map_node_preorder]
    exact h.nodup_nodes

end Forest

/-! ## Rebuilding -/

/-- The error is no verdict on a run, but a fault within it. -/
def RunError.IsFault (e : RunError) : Prop := ∃ e', e = .fault e'

/-- What is built is planted, unless there is a fault. -/
def Terms.planting : Terms s where
  forest := Forest.WellFormed
  error := RunError.IsFault
  base _ _ _ := True
  key _ _ _ := True
  nodes := Forest.Planted

theorem Terms.lawful_planting (hbare : (default : Node NodeId).Fits s) :
    (planting (s := s)).Lawful where
  upheld := Forest.upheld_wellFormed
  bare _ hf := hf.push hbare
  lasting_base _ _ _ _ _ := id
  lasting_key _ _ _ _ _ := id
  gathers := Forest.Planted.gathers
  planted := id
  nodup := Forest.Planted.nodup

theorem Terms.single_planting (p : PatternId) : (planting (s := s)).Single p :=
  fun _ _ _ _ => ⟨_, rfl⟩

/-- A node is planted on top of members that are. -/
theorem yields_insertNode_planted {f : Forest s} {ms : Grow s RunError (List (Member NodeId))}
    {kind : KindId} {value : Option Value}
    (h : ms.Yields f RunError.IsFault fun f' members =>
      f.Planted f' (members.flatMap Member.children)) :
    (do
      let members ← ms
      return Key.node (← Grow.orFault (Grow.insert { kind, value, members }))).Yields
        f RunError.IsFault
      fun f' key => True ∧ f.Planted f' key.nodes := by
  refine yields_insertNode Forest.upheld_wellFormed h (fun _ _ _ _ _ _ _ => ⟨_, rfl⟩) ?_
  rintro f' members hext hplanted f'' rfl - - -
  exact ⟨trivial, hplanted.push hext⟩

/-- Whether a rebuild of the agent is made of its parts alone: nothing of the subject stays around
it, and no run goes over it. -/
def Agent.isLocal {α : Type} : Agent α → Bool
  | .stuff .. | .anyNode .. | .slave .. => false
  | _ => true

namespace Workshop

variable {shop : Workshop s} {plan : RulePlan} {view : View} {root p : PatternId}

theorem plants_build (hs : s.WellFormed) (hps : shop.patterns.WellFormed)
    (hbare : (default : Node NodeId).Fits s)
    (hlocal : ∀ q ∈ shop.patterns.rebuiltFrom root, (shop.patterns.pattern q).agent.isLocal = true)
    (hp : p ∈ shop.patterns.rebuiltFrom root) (f₀ : Forest s) :
    Terms.planting.Builds (shop.build plan view) id f₀ p := by
  induction p using Nat.strongRecOn with
  | ind p ih =>
    have ht := Terms.lawful_planting hbare
    have inner (q : Fin p) (hq : q ∈ (shop.patterns.pattern p).agent.rebuilt) :
        Terms.planting.Builds (shop.build plan view) id f₀ q.val :=
      ih q.val q.isLt (PatternSet.mem_rebuiltFrom_of_mem_rebuilt hp hq)
    intro f base hext hf _
    have hcopy (key : Key) : (Grow.duplicateKey key).Yields f RunError.IsFault
        fun f' key' => True ∧ f.Planted f' key'.nodes :=
      ht.yields_duplicateKey (p := p) (.refl f) hf fun _ _ _ _ _ => trivial
    have hfits := hps.fits hs p
    replace hlocal := hlocal p hp
    rw [build]
    dsimp only
    generalize (shop.patterns.pattern p).agent = agent at inner hfits hlocal ⊢
    cases agent with
    | standard value members =>
      have hmember (m) (hm : m ∈ members) (q) (hq : q ∈ m.children) :=
        inner q (List.mem_flatMap_of_mem hm hq)
      refine yields_buildNode (fun k _ hkind => ?_) fun _ => ?_
      · -- What the pattern is laid over has members of the same categories, so that nothing of it
        -- is kept.
        have hfit : members.map Member.category <+: (f.get k).members.map Member.category := by
          rw [hfits.2.1, hf.wellShaped.get hs k]
          exact (hs.layout_isPrefix hkind).map _
        refine yields_insertNode_planted ((ht.yields_overlayMembers hmember
          (fun q _ => Terms.single_planting _) (fun _ _ _ _ => trivial) (.inr ⟨_, rfl⟩) hext
          hf).imp ?_)
        exact fun f' mades _ _ hmades => hmades.2.2 hfit
      · refine yields_insertNode_planted ((ht.yields_buildMembers hmember
          (fun q _ => Terms.single_planting _) hext hf).imp ?_)
        exact fun f' mades _ _ hmades => hmades.2
    | star restriction => exact yields_buildRun hf ⟨_, rfl⟩ fun _ _ _ => hcopy _
    | stuff terminus restriction => cases hlocal
    | anyNode terminus => cases hlocal
    | overlay through above =>
      exact inner above (by simp [Agent.rebuilt]) f _ hext hf fun _ _ => trivial
    | greenGrass through =>
      exact inner through (by simp [Agent.rebuilt]) f _ hext hf fun _ _ => trivial
    | notMatch q => exact yields_buildCopy hf (fun _ => ⟨_, rfl⟩) fun _ _ => hcopy _
    | matchAll qs => exact yields_buildCopy hf (fun _ => ⟨_, rfl⟩) fun _ _ => hcopy _
    | matchAny qs => exact yields_buildCopy hf (fun _ => ⟨_, rfl⟩) fun _ _ => hcopy _
    | slave through root => cases hlocal

/-- What is built of local patterns is new throughout and shares nothing within itself, whatever the
view and the base hold.  Building one pattern again and again makes material of which the same is
true. -/
theorem anew_of_build (hs : s.Built) (shop : Workshop s) (plan : RulePlan) (view : View)
    (hps : shop.patterns.WellFormed)
    (hlocal : ∀ q ∈ shop.patterns.rebuiltFrom p, (shop.patterns.pattern q).agent.isLocal = true)
    {f : Forest s} (hf : f.WellFormed) :
    (∀ base key f', shop.build plan view p base f = .ok key f' → f.Anew f' key.nodes) ∧
    ∀ (bases : List (Option Key)) keys f', bases.mapM (shop.build plan view p) f = .ok keys f' →
      f.Anew f' (keys.flatMap Key.nodes) := by
  have hplants : Terms.planting.Builds (shop.build plan view) id f p :=
    plants_build hs.wellFormed hps (fits_default hs.wellFormed hs.size_pos) hlocal
      PatternSet.self_mem_rebuiltFrom f
  refine ⟨fun base key f' h => ?_, fun bases keys f' h => ?_⟩
  · obtain ⟨-, -, -, hplanted⟩ := (hplants f base (.refl f) hf fun _ _ => trivial).of_ok h
    exact hplanted.anew
  · have hall : (bases.mapM (shop.build plan view p)).Yields f RunError.IsFault fun f' keys =>
        List.Forall₂ (fun _ _ => True) bases keys ∧ f.Planted f' (keys.flatMap Key.nodes) :=
      .mapM Forest.Planted.gathers Key.nodes (fun _ _ _ _ _ => id)
        (fun base _ f' hext hf' => hplants f' base hext hf' fun _ _ => trivial) hf
    obtain ⟨-, -, -, hplanted⟩ := hall.of_ok h
    exact hplanted.anew

theorem built_crates : crates.Built := (Schema.Built.base.define define_box).define define_crate

/-- The box is built twice on a crate that has its parts in several places, and once on nothing. -/
theorem anew_of_build_fullCrate :
    ∃ f', [some (.node 3), none, some (.node 3)].mapM (fillBox 2) fullCrate =
        .ok [.node 14, .node 20, .node 31] f' ∧
      fullCrate.Anew f' [14, 20, 31] := by
  obtain ⟨f', hrun⟩ : ∃ f', [some (.node 3), none, some (.node 3)].mapM (fillBox 2) fullCrate =
      .ok [.node 14, .node 20, .node 31] f' := Grow.exists_of_run'_eq_some (by decide +kernel)
  have hlocal : ∀ q ∈ filledBox.rebuiltFrom 2, (filledBox.pattern q).agent.isLocal = true := by
    decide +kernel
  obtain ⟨-, hanew⟩ := anew_of_build built_crates ⟨filledBox, "fill", ⟨1, true⟩⟩
    (RulePlan.make filledBox 2 []) [⟨[(1, .run false [1, 2])], []⟩] wellFormed_filledBox hlocal
    wellFormed_fullCrate
  exact ⟨f', hrun, hanew _ _ f' hrun⟩

end Workshop

end Espalier
