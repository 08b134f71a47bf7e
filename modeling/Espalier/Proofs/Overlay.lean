import Espalier.Proofs.Caps
import Espalier.Proofs.Reproduction

/-!
# Laying a pattern over a node

A standard pattern that is built on a node says what of the node is to be changed and leaves the
rest as it is.  `Overlaid` says how one member comes out, by what the pattern says of it: a member
that it leaves open or does not have is copied, child by child; a single pattern is built on the
child that is there; and the patterns of a container are built one after the other, each into what
takes its place.

Whatever is built is new, and new after all that was built before it.  No two elements of a
container that is built are the same node, so that a collection has all of them.
-/

namespace Espalier

variable {s : Schema}

/-! ## Members -/

/-- The member `m'` holds copies of the children of `m`, in the same order. -/
structure Member.Copied (f : Forest s) (m m' : Member NodeId) : Prop where
  category_eq : m'.category = m.category
  children : List.Forall₂ f.Same m.children m'.children

theorem Member.Copied.later {f f' : Forest s} {m m' : Member NodeId} (h : m.Copied f m')
    (hext : f.Extends f') : m.Copied f' m' :=
  ⟨h.category_eq, h.children.imp fun _ _ => hext.same⟩

theorem Member.Parallel.copied {f f' : Forest s} {m m' : Member NodeId}
    (h : m.Parallel (f.Copy f') m') (hlow : ∀ c ∈ m.children, c < f.size) : m.Copied f' m' :=
  ⟨h.category_eq.symm, forall₂_mono h.forall₂_children fun c hc _ _ hy => (hy (hlow c hc)).same⟩

section Build

variable {α : Type} {build : α → Option Key → Grow s RunError Key} {index : α → PatternId}
  {f f' f'' f₀ : Forest s}

/-- How the member `made` of a node comes from the member `kept` of the node that it is built on,
and from what the pattern says of it, if it says anything.  The forest is `f` before all of it and
`f'` in the end. -/
inductive Overlaid (build : α → Option Key → Grow s RunError Key) (f f' : Forest s) :
    Option (Member α) → Member NodeId → Member NodeId → Prop where
  /-- The pattern has no such member. -/
  | beyond {kept made : Member NodeId} (h : kept.Copied f' made) :
      Overlaid build f f' none kept made
  /-- The pattern leaves it open. -/
  | unsaid {m : Member α} {kept made : Member NodeId} (hm : m.children = [])
    (h : kept.Copied f' made) :
    Overlaid build f f' (some m) kept made
  /-- The pattern of a single member is built on the child that is there, if there is one. -/
  | single {p : α} {child : Option NodeId} {y : NodeId} {f₁ f₂ : Forest s} (hext : f.Extends f₁)
    (h : build p (child.map .node) f₁ = .ok (.node y) f₂) (hext' : f₂.Extends f') :
    Overlaid build f f' (some (.single (some p))) (.single child) (.single (some y))
  /-- The patterns of a sequence are built in turn, and nodes and runs are put together. -/
  | sequence {ps : List α} {items : List NodeId} {keys : List Key} {f₁ f₂ : Forest s}
    (hps : ps ≠ []) (hext : f.Extends f₁) (h : ps.mapM (fun p => build p none) f₁ = .ok keys f₂)
    (hext' : f₂.Extends f') :
    Overlaid build f f' (some (.sequence ps)) (.sequence items) (.sequence (keys.flatMap Key.nodes))
  /-- So are those of a collection. -/
  | collection {ps : List α} {items : List NodeId} {keys : List Key} {f₁ f₂ : Forest s}
    (hps : ps ≠ []) (hext : f.Extends f₁) (h : ps.mapM (fun p => build p none) f₁ = .ok keys f₂)
    (hext' : f₂.Extends f') :
    Overlaid build f f' (some (.collection ps)) (.collection items)
    (.collection (keys.flatMap Key.nodes))

namespace Overlaid

variable {m : Option (Member α)} {kept made : Member NodeId}

theorem later (h : Overlaid build f f' m kept made) (hext : f'.Extends f'') :
    Overlaid build f f'' m kept made := by
  cases h with
  | beyond h => exact .beyond (h.later hext)
  | unsaid hm h => exact .unsaid hm (h.later hext)
  | single h₁ h h₂ => exact .single h₁ h (h₂.trans hext)
  | sequence hps h₁ h h₂ => exact .sequence hps h₁ h (h₂.trans hext)
  | collection hps h₁ h h₂ => exact .collection hps h₁ h (h₂.trans hext)

theorem earlier (h : Overlaid build f f' m kept made) (hext : f₀.Extends f) :
    Overlaid build f₀ f' m kept made := by
  cases h with
  | beyond h => exact .beyond h
  | unsaid hm h => exact .unsaid hm h
  | single h₁ h h₂ => exact .single (hext.trans h₁) h h₂
  | sequence hps h₁ h h₂ => exact .sequence hps (hext.trans h₁) h h₂
  | collection hps h₁ h h₂ => exact .collection hps (hext.trans h₁) h h₂

end Overlaid

/-- All patterns are built, and into what is new. -/
def BuildsFresh (build : α → Option Key → Grow s RunError Key) (index : α → PatternId) : Prop :=
  ∀ f₀ p, (Terms.plain Forest.WellFormed fun _ => True).Builds build index f₀ p

theorem BuildsFresh.final (h : BuildsFresh build index) (p : α) (base : Option Key)
    (hf : f.WellFormed) :
    (buildFinal build index p base).Yields f (fun _ => True) fun f' y =>
      build p base f = .ok (.node y) f' := by
  refine Grow.Yields.bind (E := fun _ => True)
    ((h f p f base (.refl f) hf fun _ _ => trivial).traced.mono (fun _ _ => trivial)
      fun _ _ _ _ => id) ?_
  rintro f' key - hf' ⟨-, hrun⟩
  cases key with
  | node y => exact .pure hf' hrun
  | run ordered items => exact .throw hf' trivial

theorem BuildsFresh.items (h : BuildsFresh build index) (ps : List α) (hf : f.WellFormed) :
    (buildItems build ps).Yields f (fun _ => True) fun f' ids => ids.Nodup ∧
      ∃ keys, ps.mapM (fun p => build p none) f = .ok keys f' ∧ ids = keys.flatMap Key.nodes := by
  have hkeys : (ps.mapM fun p => build p none).Yields f (fun _ => True) fun f' keys =>
      List.Forall₂ (fun _ _ => True) ps keys ∧ f.Fresh f' (keys.flatMap Key.nodes) :=
    .mapM Forest.Fresh.gathers Key.nodes (fun _ _ _ _ _ => id)
      (fun p _ f' _ hf' => h f' p f' none (.refl f') hf' fun _ _ => trivial) hf
  refine (hkeys.traced.mono (fun _ _ => trivial) fun _ _ _ _ => id).map ?_
  rintro f' keys - ⟨⟨-, hfresh⟩, hrun⟩
  exact ⟨hfresh.nodup, keys, hrun, rfl⟩

theorem BuildsFresh.overlayMember (h : BuildsFresh build index) {m : Member α}
    {kept : Member NodeId} (hbare : (default : Node NodeId).Fits s) (hf : f.WellFormed)
    (hcategory : m.category = kept.category) (hkept : ∀ c ∈ kept.children, c < f.size) :
    (overlayMember build index m kept).Yields f (fun _ => True) fun f' made =>
      Overlaid build f f' (some m) kept made := by
  obtain ⟨-, hne, -⟩ | ⟨hm, hrun⟩ | ⟨p, child, rfl, rfl, hrun⟩ | ⟨hm, hchild, hrun⟩ :=
    overlayMember_cases build index m kept
  · exact absurd hcategory hne
  · rw [hrun]
    refine (Grow.Yields.copyMember Forest.upheld_wellFormed (fun _ hf => hf.push hbare) (.refl f) hf
      kept).imp ?_
    exact fun f' made _ _ hmade => .unsaid hm (hmade.1.copied hkept)
  · rw [hrun]
    refine (h.final p _ hf).map ?_
    exact fun f' y hext hy => .single (.refl f) hy (.refl f')
  · rw [hrun]
    cases m with
    | single p =>
      cases p with
      | none => exact absurd rfl hm
      | some p =>
        obtain rfl : kept = .single none := by
          cases kept with
          | single child =>
            cases child with
            | none => rfl
            | some c => exact absurd rfl (hchild p c rfl)
          | _ => cases hcategory
        refine (h.final p none hf).map ?_
        exact fun f' y hext hy => .single (.refl f) hy (.refl f')
    | sequence ps =>
      cases kept with
      | sequence items =>
        refine (h.items ps hf).map ?_
        rintro f' ids - ⟨-, keys, hkeys, rfl⟩
        exact .sequence hm (.refl f) hkeys (.refl f')
      | _ => cases hcategory
    | collection ps =>
      cases kept with
      | collection items =>
        refine (h.items ps hf).map ?_
        rintro f' ids - ⟨hnodup, keys, hkeys, rfl⟩
        rw [keepFirst_eq_self hnodup]
        exact .collection hm (.refl f) hkeys (.refl f')
      | _ => cases hcategory

/-- Members are laid over each other one by one. -/
theorem BuildsFresh.overlayMembers (h : BuildsFresh build index) (misfit : Fault)
    {ms : List (Member α)} {kept : List (Member NodeId)} (hbare : (default : Node NodeId).Fits s)
    (hf : f.WellFormed) (hfit : ms.map Member.category <+: kept.map Member.category)
    (hkept : ∀ k ∈ kept, ∀ c ∈ k.children, c < f.size) :
    (overlayMembers build index misfit ms kept).Yields f (fun _ => True) fun f' mades =>
      mades.length = kept.length ∧ ∀ (i : Nat) k made, kept[i]? = some k → mades[i]? = some made →
        Overlaid build f f' ms[i]? k made := by
  have hlow {f' : Forest s} (hext : f.Extends f') {k} (hk : k ∈ kept) (c) (hc : c ∈ k.children) :
      c < f'.size := Nat.lt_of_lt_of_le (hkept k hk c hc) hext.size_le
  refine (yields_overlayMembers (R := fun f' m k made => Overlaid build f f' m k made)
    (G := fun _ _ _ => True) ⟨fun _ => trivial, fun _ _ _ _ => trivial⟩ ?_ ?_ ?_ (.inl ?_) hf).imp
      fun f' mades _ _ hmades => ⟨hmades.1, hmades.2.1⟩
  · exact fun m k f₁ f₂ made hext hmade => hmade.later hext
  · intro k hk f' hext hf'
    refine (Grow.Yields.copyMember Forest.upheld_wellFormed (fun _ hf => hf.push hbare) (.refl f')
      hf' k).imp ?_
    exact fun f'' made _ _ hmade => ⟨.beyond (hmade.1.copied (hlow hext hk)), trivial⟩
  · intro i m k hm hk f' hext hf'
    have hcategory := Member.category_eq_of_isPrefix hfit hm hk
    refine (h.overlayMember hbare hf' hcategory (hlow hext (List.mem_of_getElem? hk))).imp ?_
    exact fun f'' made _ _ hmade => ⟨hmade.earlier hext, fun _ => trivial⟩
  · simpa using hfit.length_le

end Build

namespace Workshop

variable {shop : Workshop s} {plan : RulePlan} {view : View} {p : PatternId} {value : Option Value}
  {members : List (Member (Fin p))} {base : Option Key} {f f' : Forest s} {k : NodeId}

/-- What a standard pattern does with a node of its kind. -/
theorem build_on_node (hagent : (shop.patterns.pattern p).agent = .standard value members)
    (hkey : (view.get? p).or base = some (.node k))
    (hkind : s.isSubkind (f.get k).kind (shop.patterns.pattern p).kind = true) :
    shop.build plan view p base f = (do
      let members ← overlayMembers (fun (q : Fin p) => shop.build plan view q.val) Fin.val
        (.itemise p k) members (f.get k).members
      return Key.node (← Grow.orFault (Grow.insert
        { kind := (f.get k).kind, value := value.or (f.get k).value, members }))) f := by
  rw [build, hagent, hkey]
  dsimp only
  rw [buildNode, Grow.get_bind_apply]
  simp only [Option.bind_some, Key.node?, Option.filter_some, hkind, if_true]

/-- A standard pattern that is built on a node of its kind gives a node of the same kind, with the
value that the pattern has or else that of the node, and with the members of the node as far as the
pattern says nothing else. -/
theorem overlaid_of_build (hs : s.WellFormed) (hps : shop.patterns.WellFormed) (hf : f.WellFormed)
    (hagent : (shop.patterns.pattern p).agent = .standard value members)
    (hkey : (view.get? p).or base = some (.node k)) (hk : k < f.size)
    (hkind : s.isSubkind (f.get k).kind (shop.patterns.pattern p).kind = true) {key : Key}
    (h : shop.build plan view p base f = .ok key f') :
    ∃ n, key = .node n ∧ f.Extends f' ∧ (f'.get n).kind = (f.get k).kind ∧
      (f'.get n).value = value.or (f.get k).value ∧
      (f'.get n).members.length = (f.get k).members.length ∧
      ∀ (i : Nat) kept made, (f.get k).members[i]? = some kept →
        (f'.get n).members[i]? = some made →
        Overlaid (fun (q : Fin p) => shop.build plan view q.val) f f' members[i]? kept made := by
  have hnode := hf.get hk
  have hbare := fits_default hs (Nat.zero_lt_of_lt hnode.kind_lt)
  have hfresh : BuildsFresh (fun (q : Fin p) => shop.build plan view q.val) Fin.val :=
    fun f₀ q => shop.fresh_build hbare plan view q.val f₀
  have hfits := hps.fits hs p
  rw [hagent] at hfits
  obtain ⟨-, hmembers, -⟩ := hfits
  have hfit : members.map Member.category <+: (f.get k).members.map Member.category := by
    rw [hmembers, hnode.members]
    exact (hs.layout_isPrefix hkind).map _
  have hlow : ∀ m ∈ (f.get k).members, ∀ c ∈ m.children, c < f.size := fun m hm c hc =>
    Nat.lt_trans (f.child_lt_of_mem (List.mem_flatMap_of_mem hm hc)) hk
  rw [build_on_node hagent hkey hkind] at h
  obtain ⟨mades, f₁, hmades, h⟩ := Grow.exists_of_bind_eq_ok h
  obtain ⟨n, f₂, hinsert, h⟩ := Grow.exists_of_bind_eq_ok h
  cases h
  obtain ⟨hext₁, hf₁, hlength, hoverlaid⟩ := (hfresh.overlayMembers _ hbare hf hfit hlow).of_ok
    hmades
  obtain ⟨hext₂, -, -, -, hget, -⟩ := (Grow.Yields.insert (E := fun _ => True)
    Forest.upheld_wellFormed hf₁ fun _ _ => trivial).of_ok (Grow.eq_ok_of_orFault hinsert)
  refine ⟨n, rfl, hext₁.trans hext₂, ?_⟩
  rw [hget]
  refine ⟨rfl, rfl, hlength, fun i kept made hkept hmade => ?_⟩
  exact (hoverlaid i kept made hkept hmade).later hext₂

/-- A member of every category, and one more. -/
def boxMembers : List MemberDecl :=
  [⟨"lid", .single⟩, ⟨"row", .sequence⟩, ⟨"bag", .collection⟩, ⟨"slot", .single⟩]

def boxes : Schema :=
  (Schema.base.push ⟨"Box", some 0, boxMembers, true⟩ Schema.nodeKind_lt_base).enter "Box" 1

theorem box_lt_boxes : ∀ p ∈ some 1, p < boxes.size := by decide

/-- Boxes, and crates, which are boxes with a tag. -/
def crates : Schema :=
  (boxes.push ⟨"Crate", some 1, boxMembers ++ [⟨"tag", .single⟩], true⟩ box_lt_boxes).enter
    "Crate" 2

theorem define_box : Schema.define "Box" 0 boxMembers true .base = .ok 1 boxes :=
  Schema.define_of_extendLayout (by decide) Schema.nodeKind_lt_base rfl

theorem define_crate : Schema.define "Crate" 1 [⟨"tag", .single⟩] false boxes = .ok 2 crates :=
  Schema.define_of_extendLayout (by decide) box_lt_boxes rfl

theorem wellFormed_crates : crates.WellFormed :=
  (Schema.wellFormed_base.define define_box).define define_crate

/-- A crate that is full. -/
def fullCrate : Forest crates :=
  (((Forest.empty.push ⟨0, none, []⟩).push ⟨0, none, []⟩).push ⟨0, none, []⟩).push
    ⟨2, some (.bool false), [.single (some 0), .sequence [0, 1, 0], .collection [1, 2],
      .single (some 1), .single (some 2)]⟩

theorem wellFormed_fullCrate : fullCrate.WellFormed := by
  have fits {f : Forest crates} {n : Node NodeId} (h : f.check n = .ok ()) : n.Fits crates :=
    (Forest.check_eq_ok_iff.mp h).1
  exact (((Forest.wellFormed_empty.push (fits (f := .empty) rfl)).push
    (fits (f := .empty) rfl)).push (fits (f := .empty) rfl)).push (fits (f := fullCrate) rfl)

/-- A box with another value and another lid, and with more in its bag. -/
def filledBox : PatternSet crates :=
  ((PatternSet.empty.push ⟨0, .standard none []⟩).push ⟨0, .star none⟩).push
    ⟨1, .standard (some (.bool true)) [.single (some 0), .sequence [], .collection [0, 1, 0],
      .single none]⟩

theorem wellFormed_filledBox : filledBox.WellFormed :=
  ((PatternSet.wellFormed_empty.insert
    (rfl : PatternSet.insert _ 0 (.standard none []) = .ok _)).insert
    (rfl : PatternSet.insert _ 0 (.star none) = .ok _)).insert
    (rfl : PatternSet.insert _ 1 (.standard (some (.bool true))
      [.single (some 0), .sequence [], .collection [0, 1, 0], .single none]) = .ok _)

/-- To build the box, where the star stands for the bag of the crate. -/
def fillBox (p : PatternId) (base : Option Key) : Grow crates RunError Key :=
  Workshop.build ⟨filledBox, "fill", ⟨1, true⟩⟩ (RulePlan.make filledBox 2 [])
    [⟨[(1, .run false [1, 2])], []⟩] p base

/-- The box is built on the crate.  Of its members the row and the slot are those of the crate, and
so is the tag, which a box does not have. -/
theorem overlaid_of_build_fullCrate :
    ∃ f', fillBox 2 (some (.node 3)) fullCrate = .ok (.node 14) f' ∧ (f'.get 14).kind = 2 ∧
      (f'.get 14).value = some (.bool true) ∧ (f'.get 14).members.length = 5 ∧
      ∀ (i : Nat) kept made, (fullCrate.get 3).members[i]? = some kept →
        (f'.get 14).members[i]? = some made →
        Overlaid (fun (q : Fin 2) => fillBox q.val) fullCrate f'
          ([.single (some 0), .sequence [], .collection [0, 1, 0], .single none][i]?)
            kept made := by
  obtain ⟨f', hrun⟩ : ∃ f', fillBox 2 (some (.node 3)) fullCrate = .ok (.node 14) f' :=
    Grow.exists_of_run'_eq_some (by decide +kernel)
  obtain ⟨n, hn, -, hoverlaid⟩ := overlaid_of_build wellFormed_crates wellFormed_filledBox
    wellFormed_fullCrate rfl rfl (by decide) (by decide +kernel) hrun
  cases hn
  exact ⟨f', hrun, hoverlaid⟩

end Workshop

end Espalier
