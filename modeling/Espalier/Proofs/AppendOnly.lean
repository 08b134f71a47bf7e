import Espalier.Proofs.Building
import Espalier.Proofs.Invariance
import Espalier.Tree.Basic

/-!
# Forests are append-only

Whatever is asked of a forest, it only grows.  A call that fails half-way leaves what it has
appended so far, and that is well-formed, too: nodes go in after the check of the schema, and the
copies of `duplicate`, which are not checked, are made of nodes that were.

Nothing is assumed about the ids that a call names.  One beyond the end of the forest is read as a
bare node, so that the schema has to have the topmost kind.
-/

namespace Espalier

variable {s : Schema}

/-! ## Rebuilding -/

namespace Workshop

variable (shop : Workshop s)

/-- All nodes of a key that is built are new, whatever the patterns and the plan are. -/
theorem fresh_build (hbare : (default : Node NodeId).Fits s) (plan : RulePlan) (view : View)
    (p : PatternId) (f₀ : Forest s) :
    (Terms.plain Forest.WellFormed fun _ => True).Builds (shop.build plan view) id f₀ p := by
  induction p using Nat.strongRecOn generalizing plan view f₀ with
  | ind p ih =>
    refine builds_plain Forest.upheld_wellFormed (fun f hf => hf.push hbare) (fun _ _ => trivial)
      (fun q _ => ih q.val q.isLt plan view f₀) (fun _ _ _ _ _ _ _ => .inr trivial)
      fun through root f f' built _ hext hf' hbuilt => ?_
    -- The rounds of a slave start from what was built just before them.
    refine yields_buildSlave hf' (fun _ => trivial) fun slavePlan _ => ?_
    refine (yields_rounds (P := fun f'' y => f.New f'' y) (fun _ _ _ _ _ _ _ => trivial) ?_
      (fun _ => trivial) hf' hbuilt).imp fun _ _ _ _ hnew => hnew.fresh
    intro f₁ x c hext₁ hf₁ _ _
    have hbuild := ih root.val root.isLt slavePlan (c :: view) f₁
    refine (Terms.single (fun _ _ _ _ => trivial) (hbuild f₁ none (.refl f₁) hf₁ (by simp))).imp ?_
    rintro f₂ y - - ⟨-, hy⟩
    exact hy.head.earlier (hext.trans hext₁)

theorem new_buildFinal (hbare : (default : Node NodeId).Fits s) (plan : RulePlan) (view : View)
    (p : PatternId) {f : Forest s} (hf : f.WellFormed) :
    (buildFinal (shop.build plan view) id p none).Yields f (fun _ => True) fun f' y =>
      f.New f' y := by
  refine ((shop.fresh_build hbare plan view p f).final (fun _ _ _ _ => trivial) (.refl f) hf
    (by simp)).imp ?_
  rintro f' y - - ⟨-, hy⟩
  exact hy.head

/-- What a run comes to is what it started from, or new. -/
theorem appends_run (hbare : (default : Node NodeId).Fits s) (plan : RulePlan) (view : View)
    (root : NodeId) {f : Forest s} (hf : f.WellFormed) :
    (shop.run plan view root).Yields f (fun _ => True) fun f' applied =>
      applied.root = root ∨ f.New f' applied.root := by
  refine yields_rounds (P := fun f' y => y = root ∨ f.New f' y) (fun _ _ _ _ _ _ _ => trivial) ?_
    (fun _ => trivial) hf (.inl rfl)
  intro f' x c hext hf' _ _
  refine (shop.new_buildFinal hbare plan (c :: view) plan.root hf').imp ?_
  exact fun f'' y _ _ hy => .inr (hy.earlier hext)

end Workshop

/-- A rule for another schema does nothing. -/
theorem Rule.appends_applyTo (hbare : (default : Node NodeId).Fits s) {t : Schema} (r : Rule t)
    (limits : Limits) (root : NodeId) {f : Forest s} (hf : f.WellFormed) :
    (r.applyTo limits root : Grow s RunError Applied).Yields f (fun _ => True) fun f' applied =>
      applied.root = root ∨ f.New f' applied.root := by
  rw [applyTo]
  split
  next h =>
    subst h
    exact Workshop.appends_run _ hbare r.plan [] root hf
  next => exact .throw hf trivial

/-! ## Trees -/

/-- Children go in before their parents. -/
theorem Grow.appends_addTree (t : Tree) {f : Forest s} (hf : f.WellFormed) :
    (addTree t : Grow s SchemaError NodeId).Yields f (fun _ => True) fun f' y => f.New f' y := by
  induction hsize : t.size using Nat.strongRecOn generalizing t f with
  | ind size ih =>
    have hbranch {name : String} {b : Branch} (hb : t.members.lookup name = some b) :
        b.size < size := by
      have hle := size_le_membersSize hb
      cases t
      rw [← hsize, Tree.size, Nat.add_comm]
      exact Nat.lt_succ_of_le hle
    rw [addTree]
    split
    next kind _ =>
      rw [pure_bind]
      dsimp only
      split
      next => exact .throw hf trivial
      next =>
        refine Yields.bind (Yields.mapM_of_forall ?_ hf) fun f₁ members hext₁ hf₁ _ => ?_
        · rintro ⟨d, index⟩ - f' hf'
          dsimp only
          split
          next => exact .pure hf' trivial
          next => exact .pure hf' trivial
          next child hb =>
            split
            next => exact (ih child.size (hbranch hb) child hf' rfl).map fun _ _ _ _ => trivial
            next => exact .throw hf' trivial
          next items hb =>
            have hitems : (items.attach.mapM fun u => addTree u.val : Grow s SchemaError _).Yields
                f' (fun _ => True) fun _ _ => True :=
              .mapM_of_forall (fun u _ f'' hf'' => (ih u.val.size
                (Nat.lt_of_le_of_lt (size_le_treesSize u.property) (hbranch hb)) _ hf'' rfl).imp
                  fun _ _ _ _ _ => trivial) hf'
            split
            next => exact .throw hf' trivial
            next => exact hitems.map fun _ _ _ _ => trivial
            next => exact hitems.map fun _ _ _ _ => trivial
        · refine (Yields.insert Forest.upheld_wellFormed hf₁ fun _ _ => trivial).imp ?_
          rintro f₂ y - - ⟨-, -, -, hnew⟩
          exact hnew.earlier hext₁
    next e _ => exact .throw hf trivial

/-! ## Runs of calls -/

/-- What can be asked of a forest. -/
inductive Call (s : Schema) where
  /-- Add a node that is given outright. -/
  | insert (n : Node NodeId)
  /-- Add a node with a value and without children. -/
  | leaf (kind : KindId) (value : Value)
  | addTree (t : Tree)
  | duplicate (id : NodeId)
  | withChild (id : NodeId) (member position : Nat) (child : NodeId)
  /-- Apply a rule, that may be one for another schema. -/
  | apply (t : Schema) (rule : Rule t) (limits : Limits) (root : NodeId)

namespace Call

/-- A call gives the node that it has made; a rule gives the root that it comes to. -/
def run : Call s → Grow s RunError NodeId
  | insert n => Grow.orFault (Grow.insert n)
  | leaf kind value => Grow.orFault (Grow.insert ⟨kind, some value, Forest.emptyMembers s kind⟩)
  | addTree t => Grow.orFault (Grow.addTree t)
  | duplicate id => Grow.duplicate id
  | withChild id member position child => Grow.orFault (Grow.withChild id member position child)
  | apply _ rule limits root => do return (← rule.applyTo limits root).root

/-- What a forest has become after some calls, each on what those before it have left. -/
def after (f : Forest s) (calls : List (Call s)) : Forest s :=
  calls.foldl (fun f call => call.run.after f) f

/-- The node that a call gives is new, unless it is the root that a rule was applied to. -/
theorem appends_run (hbare : (default : Node NodeId).Fits s) (call : Call s) {f : Forest s}
    (hf : f.WellFormed) :
    call.run.Yields f (fun _ => True) fun f' id =>
      (∃ t rule limits, call = apply t rule limits id) ∨ f.New f' id := by
  have hinsert (n : Node NodeId) : (Grow.orFault (Grow.insert n) : Grow s RunError NodeId).Yields f
      (fun _ => True) fun f' id =>
        (∃ t rule limits, call = apply t rule limits id) ∨ f.New f' id := by
    refine .orFault ((Grow.Yields.insert Forest.upheld_wellFormed hf fun _ _ => trivial).imp ?_)
    rintro f' id - - ⟨-, -, -, hnew⟩
    exact .inr hnew
  cases call with
  | insert n => exact hinsert n
  | leaf kind value => exact hinsert _
  | addTree t =>
    exact .orFault ((Grow.appends_addTree t hf).imp fun f' id _ _ hnew => .inr hnew)
  | duplicate id =>
    refine (Grow.Yields.duplicate Forest.upheld_wellFormed hf
      (.inr fun f hf => hf.push hbare)).imp ?_
    exact fun f' y _ _ hy => .inr hy.2.fresh.head
  | withChild id member position child =>
    refine .orFault ((Grow.Yields.withChild Forest.upheld_wellFormed hf (fun _ _ => trivial)
      fun _ _ _ _ => trivial).imp ?_)
    exact fun f' y _ _ hy => .inr hy.2
  | apply t rule limits root =>
    refine (rule.appends_applyTo hbare limits root hf).map ?_
    rintro f' applied - (heq | hnew)
    · exact .inl ⟨t, rule, limits, by rw [heq]⟩
    · exact .inr hnew

theorem extends_after (hbare : (default : Node NodeId).Fits s) {f : Forest s} (hf : f.WellFormed)
    (calls : List (Call s)) : f.Extends (after f calls) ∧ (after f calls).WellFormed := by
  induction calls generalizing f with
  | nil => exact ⟨.refl f, hf⟩
  | cons call calls ih =>
    obtain ⟨hext, hf'⟩ := (call.appends_run hbare hf).forest_after
    obtain ⟨hext', hf''⟩ := ih hf'
    exact ⟨hext.trans hext', hf''⟩

/-- After any calls, failed ones among them, every node fits the schema and comes after its
children.  Whatever calls follow leave every node as it is and where it is, and what a call gives is
there. -/
theorem after_appendOnly (hs : s.WellFormed) (hpos : 0 < s.size) (calls : List (Call s)) :
    (∀ (id : NodeId) (n : Node NodeId), (after .empty calls).nodes[id]? = some n →
      n.Fits s ∧ ∀ c ∈ n.children, c < id) ∧
    (∀ (later : List (Call s)) (id : NodeId) (n : Node NodeId),
      (after .empty calls).nodes[id]? = some n →
        (after .empty (calls ++ later)).nodes[id]? = some n) ∧
    ∀ (call : Call s) (id : NodeId) (f' : Forest s), call.run (after .empty calls) = .ok id f' →
      (∃ t rule limits, call = apply t rule limits id) ∨ (after .empty calls).New f' id := by
  have hbare := fits_default hs hpos
  obtain ⟨-, hf⟩ := extends_after hbare Forest.wellFormed_empty calls
  refine ⟨?_, ?_, ?_⟩
  · intro id n hn
    exact ⟨hf id n hn, (after .empty calls).child_lt id n hn⟩
  · intro later id n hn
    have hlater : after .empty (calls ++ later) = after (after .empty calls) later :=
      List.foldl_append
    rw [hlater]
    exact (extends_after hbare hf later).1.getElem?_eq hn
  · intro call id f' hrun
    exact ((call.appends_run hbare hf).of_ok hrun).2.2

/-- A bag of a leaf and an empty bag. -/
def fillBag : List (Call Rule.bags) :=
  [insert ⟨0, none, []⟩, insert ⟨1, none, [.collection []]⟩, insert ⟨1, none, [.collection [0, 1]]⟩]

/-- Calls of which most fail: for a node that is twice in a bag, for the value of a bag, for a kind
that is met when a part of the tree is already in, and for a rule that still matches what it has
made. -/
def strainBag : List (Call Rule.bags) :=
  [insert ⟨1, none, [.collection [0, 0]]⟩, leaf 1 (.bool true),
    addTree (.node "Bag" none [("items", .many [.node "Node" none [], .node "Sack" none []])]),
    duplicate 2, withChild 2 0 0 1, apply Rule.bags Rule.findUnlike ⟨1, true⟩ 2]

/-- The last call fails, and the bag at 10 is what its rule has made. -/
theorem after_appendOnly_strainBag :
    (apply Rule.bags Rule.findUnlike ⟨1, true⟩ 2).run.run' (after .empty fillBag) = none ∧
      (after .empty (fillBag ++ strainBag)).nodes[2]? = some ⟨1, none, [.collection [0, 1]]⟩ ∧
      (after .empty (fillBag ++ strainBag)).nodes[10]? = some ⟨1, none, [.collection [8, 9]]⟩ ∧
      Node.Fits Rule.bags ⟨1, none, [.collection [8, 9]]⟩ := by
  have hs : Rule.bags.WellFormed := Schema.wellFormed_base.define Rule.define_bags
  have hpos : 0 < Rule.bags.size := by decide
  have hfilled : (after .empty fillBag).nodes[2]? = some ⟨1, none, [.collection [0, 1]]⟩ := by
    decide +kernel
  have hmade : (after .empty (fillBag ++ strainBag)).nodes[10]? =
      some ⟨1, none, [.collection [8, 9]]⟩ := by
    decide +kernel
  obtain ⟨-, hkept, -⟩ := after_appendOnly hs hpos fillBag
  obtain ⟨hfits, -, -⟩ := after_appendOnly hs hpos (fillBag ++ strainBag)
  exact ⟨by decide +kernel, hkept strainBag 2 _ hfilled, hmade, (hfits 10 _ hmade).1⟩

end Call

end Espalier
