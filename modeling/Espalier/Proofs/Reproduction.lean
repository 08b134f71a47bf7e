import Espalier.Proofs.Coupling
import Espalier.Proofs.Rebuild

/-!
# Rebuilding a pattern that changes nothing

The couplings of a search say what each pattern stands for, and a rebuild puts together copies of
that.  If no pattern on the way lays another one over what it matches, the result is equal to the
subject: whatever a pattern refers to stands where the subject has it, and what a pattern leaves
open is copied.
-/

namespace Espalier

variable {s : Schema}

/-! ## Copies of keys -/

/-- The nodes of `key'` are equal to those of `key`, one by one. -/
structure Key.Copied (f : Forest s) (key key' : Key) : Prop where
  nodes : List.Forall₂ f.Same key.nodes key'.nodes
  node : ∀ x, key = .node x → ∃ y, key' = .node y

theorem Key.copied_node {f : Forest s} {x y : NodeId} (h : f.Same x y) :
    Key.Copied f (.node x) (.node y) :=
  ⟨.cons h .nil, fun _ _ => ⟨y, rfl⟩⟩

theorem Key.Copied.exists_node {f : Forest s} {x : NodeId} {key : Key}
    (h : Key.Copied f (.node x) key) : ∃ y, key = .node y ∧ f.Same x y := by
  obtain ⟨y, rfl⟩ := h.node x rfl
  cases h.nodes with
  | cons hxy _ => exact ⟨y, rfl, hxy⟩

theorem Key.Copied.later {f f' : Forest s} {key key' : Key} (h : key.Copied f key')
    (hext : f.Extends f') : key.Copied f' key' :=
  ⟨h.nodes.imp fun _ _ => hext.same, h.node⟩

theorem Key.copied_of_copies {f f₀ : Forest s} {key key' : Key}
    (hnode : key'.node?.isSome = key.node?.isSome)
    (h : List.Forall₂ (f₀.Copy f) key.nodes key'.nodes) (hlow : ∀ x ∈ key.nodes, x < f₀.size) :
    key.Copied f key' := by
  refine ⟨forall₂_mono h fun x hx y _ hxy => (hxy (hlow x hx)).same, ?_⟩
  rintro x rfl
  cases key' with
  | node y => exact ⟨y, rfl⟩
  | run ordered items => cases hnode

/-! ## Members -/

/-- Terms by which a pattern that stands for something is built into a copy of that. -/
def Terms.copying (σ : PatternId → Option Key) : Terms s where
  forest := Forest.WellFormed
  error _ := False
  base _ _ _ := True
  key f p key' := ∀ key, σ p = some key → key.Copied f key'
  nodes := Forest.Fresh

theorem Terms.lawful_copying (hbare : (default : Node NodeId).Fits s) (σ : PatternId → Option Key) :
    (Terms.copying (s := s) σ).Lawful where
  upheld := Forest.upheld_wellFormed
  bare _ hf := hf.push hbare
  lasting_base _ _ _ _ _ := id
  lasting_key _ _ _ _ hext h key hkey := (h key hkey).later hext
  gathers := Forest.Fresh.gathers
  planted := Forest.Planted.fresh
  nodup := Forest.Fresh.nodup

/-- What stands for a node is not built into a run. -/
theorem Terms.single_copying {σ : PatternId → Option Key} {p : PatternId} {x : NodeId}
    (hx : σ p = some (.node x)) : (Terms.copying (s := s) σ).Single p := by
  intro f ordered items h
  obtain ⟨y, hy⟩ := (h _ hx).node x rfl
  cases hy

section Standing

variable {α : Type} {σ : α → Option Key} {f₀ : Forest s} {qs : List α}

theorem forall₂_standing {f : Forest s} {keys : List Key} (hq : ∀ q ∈ qs, (σ q).isSome = true)
    (h : List.Forall₂ (fun q key' => ∀ key, σ q = some key → key.Copied f key') qs keys) :
    List.Forall₂ f.Same (standing σ qs) (keys.flatMap Key.nodes) := by
  induction h with
  | nil => exact .nil
  | cons hkey _ ih =>
    rw [List.forall_mem_cons] at hq
    obtain ⟨key, hkey'⟩ := Option.isSome_iff_exists.mp hq.1
    rw [standing_cons_of_eq hkey', List.flatMap_cons]
    exact List.rel_append (hkey key hkey').nodes (ih hq.2)

theorem lt_of_mem_standing (hσ : ∀ q key, σ q = some key → ∀ x ∈ key.nodes, x < f₀.size)
    {x : NodeId} (hx : x ∈ standing σ qs) : x < f₀.size := by
  obtain ⟨q, -, hx⟩ := List.mem_flatMap.mp hx
  cases hq : σ q with
  | none => simp [hq] at hx
  | some key => exact hσ q key hq x (by simpa [hq] using hx)

/-- What was equal to a member before is equal to its copies. -/
theorem alike_of_copy {f : Forest s} {m kept m' : Member NodeId} (hext : f₀.Extends f)
    (hm : m.Alike (fun x y => f₀.compare x y = .eq) kept) (hlow : ∀ x ∈ m.children, x < f₀.size)
    (hkept : ∀ y ∈ kept.children, y < f₀.size) (hm' : m.Alike f.Same m') :
    kept.Alike f.Same m' := by
  have hsame : m.Alike f.Same kept :=
    hm.mono fun x hx y hy hxy => hext.same ⟨hlow x hx, hkept y hy, hxy⟩
  refine (hsame.flip.comp hm').mono ?_
  rintro y - z - ⟨x, hxy, hxz⟩
  exact hxy.symm.trans hxz

theorem MemberStandsFor.category_eq {m : Member α} {kept : Member NodeId}
    (h : MemberStandsFor f₀ σ m kept) : m.category = kept.category := by
  unfold MemberStandsFor at h
  split at h
  case h_5 => exact h.elim
  all_goals rfl

theorem MemberStandsFor.isSome {m : Member α} {kept : Member NodeId}
    (h : MemberStandsFor f₀ σ m kept) {q : α} (hq : q ∈ m.children) : (σ q).isSome = true := by
  unfold MemberStandsFor at h
  split at h
  next => cases hq
  next q' y =>
    obtain rfl : q = q' := by simpa [Member.children] using hq
    obtain ⟨x, hx, -⟩ := h
    rw [hx]
    rfl
  next => exact h.1 q hq
  next => exact h.1 q hq
  next => exact h.elim

/-- Where the patterns of a member make up that of a node, what comes of laying the one over the
other is a copy of that of the node. -/
theorem alike_of_laid {f : Forest s} {m : Option (Member α)} {kept made : Member NodeId}
    (hσ : ∀ q key, σ q = some key → ∀ x ∈ key.nodes, x < f₀.size) (hext : f₀.Extends f)
    (hkept : ∀ c ∈ kept.children, c < f₀.size) (hm : ∀ m' ∈ m, MemberStandsFor f₀ σ m' kept)
    (h : Member.Laid (fun q key' => ∀ key, σ q = some key → key.Copied f key') (f₀.Copy f) m kept
      made) : kept.Alike f.Same made := by
  have hcopy (h : kept.Parallel (f₀.Copy f) made) : kept.Alike f.Same made :=
    h.alike.mono fun c hc y _ hy => (hy (hkept c hc)).same
  cases h with
  | beyond h => exact hcopy h
  | unlike hne => exact absurd (hm _ rfl).category_eq hne
  | unsaid _ h => exact hcopy h
  | @made m _ _ hchildren h =>
    have hstands := hm m rfl
    cases h with
    | none => exact absurd rfl hchildren
    | @single q z hz =>
      cases kept with
      | single child =>
        cases child with
        | none => exact hstands.elim
        | some y =>
          obtain ⟨x, hx, hxy⟩ := hstands
          obtain ⟨z', hz', hxz⟩ := (hz _ hx).exists_node
          cases hz'
          refine alike_of_copy hext (.single (.some hxy)) ?_ hkept (.single (.some hxz))
          simpa [Member.children] using hσ q _ hx
      | _ => exact hstands.elim
    | sequence hkeys =>
      cases kept with
      | sequence ys =>
        exact alike_of_copy hext (.sequence hstands.2) (fun x => lt_of_mem_standing hσ) hkept
          (.sequence (forall₂_standing hstands.1 hkeys))
      | _ => exact hstands.elim
    | collection hkeys =>
      cases kept with
      | collection ys =>
        exact alike_of_copy hext (.collection hstands.2) (fun x => lt_of_mem_standing hσ) hkept
          (.collection (rel_of_forall₂ (forall₂_standing hstands.1 hkeys)))
      | _ => exact hstands.elim

/-- So it is with all members of a node. -/
theorem forall₂_alike_of_laid {f : Forest s} {ms : List (Member α)}
    {kept mades : List (Member NodeId)}
    (hσ : ∀ q key, σ q = some key → ∀ x ∈ key.nodes, x < f₀.size) (hext : f₀.Extends f)
    (hkept : ∀ k ∈ kept, ∀ c ∈ k.children, c < f₀.size)
    (hms : List.Forall₂ (MemberStandsFor f₀ σ) ms (kept.take ms.length))
    (hlength : mades.length = kept.length)
    (h : ∀ (i : Nat) k made, kept[i]? = some k → mades[i]? = some made →
      Member.Laid (fun q key' => ∀ key, σ q = some key → key.Copied f key') (f₀.Copy f) ms[i]? k
        made) : List.Forall₂ (Member.Alike f.Same) kept mades := by
  refine List.forall₂_iff_get.mpr ⟨hlength.symm, fun i hi hi' => ?_⟩
  have hlaid := h i _ _ (List.getElem?_eq_getElem hi) (List.getElem?_eq_getElem hi')
  refine alike_of_laid hσ hext (hkept _ (List.getElem_mem hi)) (fun m hm => ?_) hlaid
  obtain ⟨hlt, rfl⟩ := List.getElem?_eq_some_iff.mp hm
  have htake : i < (kept.take ms.length).length := by
    rw [← hms.length_eq]
    exact hlt
  have hstands := hms.get hlt htake
  simpa using hstands

end Standing

/-- To lay what accords with a node over it is to copy the node. -/
theorem yields_overlayNode {α : Type} {build : α → Option Key → Grow s RunError Key}
    {index : α → PatternId} {σ : PatternId → Option Key} {f f₀ : Forest s} {misfit : Fault}
    {x : NodeId} {value : Option Value} {members : List (Member α)}
    (ht : (Terms.copying (s := s) σ).Lawful)
    (hσ : ∀ q key, σ q = some key → ∀ x ∈ key.nodes, x < f₀.size) (hx : x < f₀.size)
    (hvalue : value.isSome → (f₀.get x).value = value)
    (hmembers : List.Forall₂ (MemberStandsFor f₀ fun q => σ (index q)) members
      ((f₀.get x).members.take members.length))
    (h : ∀ m ∈ members, ∀ q ∈ m.children, (σ (index q)).isSome = true →
      (Terms.copying σ).Builds build index f₀ q) (hext : f₀.Extends f) (hf : f.WellFormed) :
    (do
      let members ← overlayMembers build index misfit members (f₀.get x).members
      return Key.node (← Grow.orFault (Grow.insert
        { kind := (f₀.get x).kind, value := value.or (f₀.get x).value, members }))).Yields f
      (fun _ => False) fun f' key => Key.Copied f' (.node x) key ∧ f.Fresh f' key.nodes := by
  have hxf : x < f.size := Nat.lt_of_lt_of_le hx hext.size_le
  have hnode := hf.get hxf
  rw [hext.get_eq x hx] at hnode
  have hkept (k) (hk : k ∈ (f₀.get x).members) (c) (hc : c ∈ k.children) : c < f₀.size :=
    Nat.lt_trans (f₀.child_lt_of_mem (List.mem_flatMap_of_mem hk hc)) hx
  have hstands {m : Member α} (hm : m ∈ members) :
      ∃ k, MemberStandsFor f₀ (fun q => σ (index q)) m k := by
    obtain ⟨k, -, hk⟩ := exists_mem_of_forall₂ hmembers hm
    exact ⟨k, hk⟩
  have hfit : members.map Member.category <+: (f₀.get x).members.map Member.category := by
    refine List.prefix_iff_eq_take.mpr ?_
    rw [List.length_map, ← List.map_take, ← List.forall₂_eq_eq_eq, List.forall₂_map_left_iff,
      List.forall₂_map_right_iff]
    exact hmembers.imp fun m k hk => hk.category_eq
  have hvalue' : value.or (f₀.get x).value = (f₀.get x).value := by
    cases value with
    | none => rfl
    | some v => exact (hvalue rfl).symm
  refine yields_insertNode ht.upheld (ht.yields_overlayMembers (fun m hm q hq => ?_)
    (fun q hq => ?_) (fun _ _ _ _ => trivial) (.inl ?_) hext hf) ?_ ?_
  · obtain ⟨k, hk⟩ := hstands hm
    exact h m hm q hq (hk.isSome hq)
  · obtain ⟨k, hk⟩ := hstands hq
    cases k with
    | single child =>
      cases child with
      | none => exact hk.elim
      | some y =>
        obtain ⟨z, hz, -⟩ := hk
        exact Terms.single_copying hz
    | _ => exact hk.elim
  · simpa using hfit.length_le
  · rintro f' mades e - - ⟨hlength, hlaid, hfresh⟩ he
    rw [hvalue'] at he
    have hmades := (Member.map_category_of_laid hlength hlaid hfit).trans hnode.members
    cases (Forest.check_of_fresh hnode.kind_lt hnode.valued hmades (hfresh hfit)).symm.trans he
  · rintro f' mades hext' ⟨hlength, hlaid, -⟩ f'' - hext'' hnew hget
    have hgrown := hext.trans hext'
    refine ⟨Key.copied_node ?_, (hnew.earlier hext').fresh⟩
    refine hext''.same_of_alike (Nat.lt_of_lt_of_le hxf hext'.size_le) hnew.lt_size ?_
    rw [hget, hgrown.get_eq x hx, hvalue']
    exact ⟨rfl, rfl, forall₂_alike_of_laid (fun q => hσ (index q)) hgrown hkept hmembers
      hlength hlaid⟩

/-! ## Ways down -/

theorem forall₂_set {α : Type} {R : α → α → Prop} {xs : List α} {i : Nat} {x y : α}
    (hx : xs[i]? = some x) (hxy : R x y) (hR : ∀ z ∈ xs, R z z) :
    List.Forall₂ R xs (xs.set i y) := by
  induction xs generalizing i with
  | nil => cases hx
  | cons z xs ih =>
    rw [List.forall_mem_cons] at hR
    cases i with
    | zero =>
      obtain rfl := Option.some.inj hx
      exact .cons hxy (List.forall₂_same.mpr hR.2)
    | succ i => exact .cons hR.1 (ih hx hR.2)

/-- An equal child that the member does not hold yet can take the place of the old one. -/
theorem exists_replaceChild {R : NodeId → NodeId → Prop} {m : Member NodeId} {i : Nat}
    {c d : NodeId} (hc : m.children[i]? = some c) (hcd : R c d) (hR : ∀ x ∈ m.children, R x x)
    (hd : d ∉ m.children) (hnodup : ∀ items, m = .collection items → items.Nodup) :
    ∃ m', Forest.replaceChild m i d = some m' ∧ m.Alike R m' ∧
      ∀ items, m' = .collection items → items.Nodup := by
  cases m with
  | single child =>
    cases child with
    | none => cases hc
    | some child =>
      obtain ⟨-, rfl⟩ : i = 0 ∧ child = c := by
        simpa [Member.children, List.getElem?_singleton] using hc
      exact ⟨_, rfl, .single (.some hcd), nofun⟩
  | sequence items =>
    have hi : i < items.length := (List.getElem?_eq_some_iff.mp hc).1
    exact ⟨_, if_pos hi, .sequence (forall₂_set hc hcd hR), nofun⟩
  | collection items =>
    have hi : i < items.length := (List.getElem?_eq_some_iff.mp hc).1
    have hd' : d ∉ items.eraseIdx i := fun h => hd (List.mem_of_mem_eraseIdx h)
    refine ⟨.collection (items.set i d), ?_,
      .collection (rel_of_forall₂ (forall₂_set hc hcd hR)), ?_⟩
    · rw [Forest.replaceChild, if_pos hi, if_neg hd']
    · rintro _ ⟨⟩
      exact (hnodup items rfl).set hd

section Ways

variable {f f₀ : Forest s}

theorem Site.Below.node_lt {a b : Site} (h : a.Below f b) : b.node < a.node := by
  obtain ⟨m, hm, hc⟩ := h
  exact f.child_lt_of_mem (List.mem_flatMap_of_mem (List.mem_of_getElem? hm)
    (List.mem_of_getElem? hc))

theorem node_lt_of_isChain {path : List Site} {top site : Site} {n : Nat}
    (hchain : path.IsChain (Site.Below f)) (hhead : path.head? = some top) (htop : top.node < n)
    (hsite : site ∈ path) : site.node < n := by
  induction path generalizing top with
  | nil => cases hhead
  | cons first path ih =>
    obtain rfl := Option.some.inj hhead
    rcases List.mem_cons.mp hsite with rfl | hsite
    · exact htop
    · cases path with
      | nil => cases hsite
      | cons next path =>
        obtain ⟨hbelow, hrest⟩ := List.isChain_cons_cons.mp hchain
        exact ih hrest rfl (Nat.lt_trans hbelow.node_lt htop) hsite

/-- A node that takes a new child for an old one passes the check, and is like the old node if the
new child is like the old one. -/
theorem yields_withChild_alike {E : RunError → Prop} {R : NodeId → NodeId → Prop}
    {top bottom : Site} {child : NodeId} (hf : f.WellFormed) (hext : f₀.Extends f)
    (htop : top.node < f₀.size) (hbelow : top.Below f₀ bottom) (hR : R bottom.node child)
    (hrefl : ∀ x < f.size, R x x) (hlt : ∀ x y, R x y → y < f.size) (hnew : f₀.size ≤ child) :
    (Grow.orFault (Grow.withChild top.node bottom.member bottom.position child)).Yields f E
      fun f' y => (f.get top.node).Alike R (f'.get y) ∧ f.New f' y := by
  obtain ⟨m, hm, hc⟩ := hbelow
  have htopf := Nat.lt_of_lt_of_le htop hext.size_le
  rw [← hext.get_eq _ htop] at hm
  have hmem : m ∈ (f.get top.node).members := List.mem_of_getElem? hm
  have hlow {k : Member NodeId} (hk : k ∈ (f.get top.node).members) (x) (hx : x ∈ k.children) :
      x < top.node := f.child_lt_of_mem (List.mem_flatMap_of_mem hk hx)
  have hself {k : Member NodeId} (hk : k ∈ (f.get top.node).members) (x) (hx : x ∈ k.children) :
      R x x := hrefl x (Nat.lt_trans (hlow hk x hx) htopf)
  obtain ⟨m', hreplace, halike, hnodup⟩ := exists_replaceChild hc hR (hself hmem)
    (fun hd => Nat.not_lt.mpr hnew (Nat.lt_trans (hlow hmem child hd) htop)) fun items hitems =>
      (hf.get htopf).nodup items (hitems ▸ hmem)
  generalize hn : ({ f.get top.node with
    members := (f.get top.node).members.set bottom.member m' } : Node NodeId) = n
  have hmade : f.withChild top.node bottom.member bottom.position child = .ok n := by
    simp [Forest.withChild, hm, hreplace, hn]
  have hnode : (f.get top.node).Alike R n := by
    subst hn
    exact ⟨rfl, rfl, forall₂_set hm halike fun k hk => .refl (hself hk)⟩
  have hnodups : n.Unrepeated := by
    subst hn
    intro items hitems
    rcases List.mem_or_eq_of_mem_set hitems with hitems | hitems
    · exact (hf.get htopf).nodup items hitems
    · exact hnodup items hitems.symm
  have hcheck : f.check n = .ok () := by
    refine Forest.check_eq_ok_iff.mpr ⟨(hf.get htopf).of_alike hnode hnodups, fun c hc => ?_⟩
    obtain ⟨d, -, hcd⟩ := hnode.flip.exists_mem hc
    exact hlt d c hcd
  refine .orFault ((Grow.Yields.withChild Forest.upheld_wellFormed hf (fun e he => ?_)
    fun n' e hn' he => ?_).imp ?_)
  · cases hmade.symm.trans he
  · obtain rfl := Except.ok.inj (hmade.symm.trans hn')
    cases hcheck.symm.trans he
  · rintro f' y - - ⟨hget, hy⟩
    obtain rfl := Except.ok.inj (hmade.symm.trans hget)
    exact ⟨hnode, hy⟩

/-- A new copy of the end of a way, put back along it, makes a new copy of its start. -/
theorem yields_rebuildAlong_same {E : RunError → Prop} {f₁ : Forest s} {path : List Site}
    {top bottom : Site} {child : NodeId} (hf : f.WellFormed) (hext : f₀.Extends f₁)
    (hext' : f₁.Extends f) (hchain : path.IsChain (Site.Below f₀)) (hhead : path.head? = some top)
    (htop : top.node < f₀.size) (hlast : path.getLast? = some bottom)
    (hchild : f.Same bottom.node child) (hnew : f₁.New f child) :
    (rebuildAlong path child).Yields f E fun f' y => f'.Same top.node y ∧ f₁.New f' y := by
  refine (yields_rebuildAlong (Q := fun site f' y => f'.Same site.node y ∧ f₁.New f' y) hf ?_
    ?_).imp fun f' y _ _ h => h top hhead
  · intro site hsite
    obtain rfl := Option.some.inj (hlast.symm.trans hsite)
    exact ⟨hchild, hnew⟩
  · refine hchain.imp_of_mem_imp fun a b ha _ hbelow f' y hgrown hf' hy => ?_
    have hfrom := hext.trans (hext'.trans hgrown)
    have hlt := node_lt_of_isChain hchain hhead htop ha
    refine (yields_withChild_alike hf' hfrom hlt hbelow hy.1 (fun _ => .refl)
      (fun _ _ h => h.right_lt) (Nat.le_trans hext.size_le hy.2.size_le)).imp ?_
    rintro f'' z hext'' - ⟨halike, hz⟩
    have hlt' := Nat.lt_of_lt_of_le hlt hfrom.size_le
    exact ⟨hext''.same_of_alike hlt' hz.lt_size halike, hz.earlier (hext'.trans hgrown)⟩

/-- What is built at the end of a way down and put back along it is a copy of the start of the
way. -/
theorem yields_buildBelow_copied {α : Type} {build : α → Option Key → Grow s RunError Key}
    {index : α → PatternId} {σ : PatternId → Option Key} {terminus : α} {p : PatternId}
    {x y : NodeId} {sites : List Site} {bottom : Site} {way : Option (List Site)}
    (hσ : ∀ q key, σ q = some key → ∀ x ∈ key.nodes, x < f₀.size)
    (h : (Terms.copying σ).Builds build index f₀ terminus)
    (hy : σ (index terminus) = some (.node y)) (hx : x < f₀.size) (hway : way = some sites)
    (hhead : sites.head?.map Site.node = some x) (hchain : sites.IsChain (Site.Below f₀))
    (hlast : sites.getLast? = some bottom) (hyb : f₀.compare y bottom.node = .eq)
    (hext : f₀.Extends f) (hf : f.WellFormed) :
    (buildBelow build index p terminus way (some (.node x))).Yields f (fun _ => False) fun f' key =>
      Key.Copied f' (.node x) key ∧ f.Fresh f' key.nodes := by
  obtain ⟨top, htop, rfl⟩ := Option.map_eq_some_iff.mp hhead
  have hbottom : bottom.node < f₀.size :=
    node_lt_of_isChain hchain htop hx (List.mem_of_getLast? hlast)
  refine h.below (Terms.single_copying hy) hext hf (fun h => absurd rfl (h _)) ?_ ?_
  · rintro _ ⟨⟩ hlost
    exact absurd hhead (hlost sites hway)
  · rintro _ path f' z ⟨⟩ hpath - hext' hf' hz hfresh
    obtain rfl := Option.some.inj (hway.symm.trans hpath)
    obtain ⟨_, ⟨⟩, hyz⟩ := (hz _ hy).exists_node
    have hsame := (hext.trans hext').same ⟨hσ _ _ hy y (by simp), hbottom, hyb⟩
    refine (yields_rebuildAlong_same hf' hext hext' hchain htop hx hlast (hsame.symm.trans hyz)
      hfresh.head).imp ?_
    exact fun f'' w _ _ hw => ⟨Key.copied_node hw.1, hw.2.fresh⟩

end Ways

/-! ## Patterns -/

/-- Whether a rebuild may lay something else over what the agent matches. -/
def Agent.rewrites {α : Type} : Agent α → Bool
  | .overlay .. | .slave .. => true
  | _ => false

/-- The agent is rebuilt as what it matches. -/
def Agent.Keeps {α : Type} : Agent α → Prop
  | .overlay through above => above = through
  | .slave .. => False
  | _ => True

theorem Agent.keeps_of_rewrites_eq_false {α : Type} {agent : Agent α} (h : agent.rewrites = false) :
    agent.Keeps := by
  cases agent <;> trivial

/-- Whatever is bound is from before the current run, and the pattern accords with it. -/
def Scene.Accordant (scene : Scene s) (view : View) : Prop :=
  ∀ q key, view.get? q = some key →
    scene.AccordsWith view.get? (view.path? q) q key ∧ ∀ x ∈ key.nodes, x < scene.watermark

/-- What stands for an equal node is copied in its stead. -/
theorem Terms.Builds.copied {f₀ : Forest s} {σ : PatternId → Option Key}
    {build : PatternId → Option Key → Grow s RunError Key} {q : PatternId}
    (h : (Terms.copying σ).Builds build id f₀ q)
    (hσ : ∀ q key, σ q = some key → ∀ x ∈ key.nodes, x < f₀.size) {x : NodeId} (hx : x < f₀.size)
    (hq : StandsFor f₀ σ q x) (base : Option Key) {f : Forest s} (hext : f₀.Extends f)
    (hf : f.WellFormed) :
    (build q base).Yields f (fun _ => False) fun f' key =>
      Key.Copied f' (.node x) key ∧ f.Fresh f' key.nodes := by
  obtain ⟨y, hy, hyx⟩ := hq
  refine (h f base hext hf fun _ _ => trivial).imp ?_
  rintro f' key hext' - ⟨hkey, hfresh⟩
  obtain ⟨z, rfl, hyz⟩ := (hkey _ hy).exists_node
  have hsame := (hext.trans hext').same ⟨hσ q _ hy y (by simp), hx, hyx⟩
  exact ⟨Key.copied_node (hsame.symm.trans hyz), hfresh⟩

namespace Workshop

variable {view : View} {root p : PatternId} {f₀ : Forest s}

/-- To rebuild patterns that keep what they match is to copy what they are coupled to. -/
theorem copies_build (shop : Workshop s) (plan : RulePlan) (hbare : (default : Node NodeId).Fits s)
    (hacc : Scene.Accordant ⟨f₀, shop.patterns, f₀.size⟩ view)
    (hkeeps : ∀ q ∈ shop.patterns.rebuiltFrom root, (shop.patterns.pattern q).agent.Keeps)
    (hp : p ∈ shop.patterns.rebuiltFrom root) (hbound : (view.get? p).isSome = true) :
    (Terms.copying view.get?).Builds (shop.build plan view) id f₀ p := by
  have ht : (Terms.copying (s := s) view.get?).Lawful := Terms.lawful_copying hbare _
  have hσ (q : PatternId) (key : Key) (hq : view.get? q = some key) :
      ∀ x ∈ key.nodes, x < f₀.size :=
    (hacc q key hq).2
  induction p using Nat.strongRecOn with
  | ind p ih =>
    obtain ⟨key, hkey⟩ := Option.isSome_iff_exists.mp hbound
    have inner (q : Fin p) (hq : q ∈ (shop.patterns.pattern p).agent.rebuilt)
        (hbound : (view.get? q.val).isSome = true) :
        (Terms.copying view.get?).Builds (shop.build plan view) id f₀ q.val :=
      ih q.val q.isLt (PatternSet.mem_rebuiltFrom_of_mem_rebuilt hp hq) hbound
    have hkeep := hkeeps p hp
    obtain ⟨haccords, hlow⟩ := hacc p key hkey
    intro f base hext hf _
    have hor : (view.get? p).or base = some key := by
      rw [hkey]
      rfl
    -- What is asked of the result is that it is a copy of the key.
    have hdone {x : Grow s RunError Key} (h : x.Yields f (fun _ => False) fun f' key' =>
        key.Copied f' key' ∧ f.Fresh f' key'.nodes) :
        x.Yields f (fun _ => False) fun f' key' =>
          (∀ key, view.get? p = some key → key.Copied f' key') ∧ f.Fresh f' key'.nodes := by
      refine h.imp fun f' key' _ _ hkey' => ⟨fun _ hget => ?_, hkey'.2⟩
      exact Option.some.inj (hkey.symm.trans hget) ▸ hkey'.1
    refine hdone ?_
    have hcopy : (Grow.duplicateKey key).Yields f (fun _ => False) fun f' key' =>
        key.Copied f' key' ∧ f.Fresh f' key'.nodes := by
      refine (Grow.Yields.duplicateKey ht.upheld ht.bare hext hf key).imp ?_
      rintro f' key' - - ⟨hnode, hcopies, hplanted⟩
      exact ⟨Key.copied_of_copies hnode hcopies hlow, hplanted.fresh⟩
    rw [build]
    simp only [hor]
    cases key with
    | run ordered items =>
      -- Only a star stands for a run, and it copies the run as it is.
      obtain ⟨hstar, -⟩ := haccords
      dsimp only at hstar
      rw [← PatternSet.isStar_pattern] at hstar
      generalize (shop.patterns.pattern p).agent = agent at hstar ⊢
      cases agent with
      | star restriction => exact hcopy
      | _ => cases hstar
    | node x =>
      obtain ⟨-, hkind, haccords⟩ := haccords
      have hx : x < f₀.size := hlow x (by simp)
      dsimp only at haccords hkind
      generalize hagent : (shop.patterns.pattern p).agent = agent at haccords hkeep inner ⊢
      cases agent with
      | standard value members =>
        obtain ⟨hvalue, hmembers⟩ := haccords
        have hget : f.get x = f₀.get x := hext.get_eq x hx
        refine yields_buildNode (fun k hk _ => ?_) fun hno => ?_
        · obtain rfl : x = k := by simpa using hk
          rw [hget]
          exact yields_overlayNode ht hσ hx hvalue hmembers
            (fun m hm q hq => inner q (List.mem_flatMap_of_mem hm hq)) hext hf
        · have hno := hno x rfl
          rw [hget] at hno
          exact absurd hkind hno
      | star restriction => exact haccords.elim
      | stuff terminus restriction =>
        obtain ⟨sites, bottom, hway, hhead, hchain, hlast, y, hy, hyb⟩ := haccords
        have hterminus := inner terminus (by simp [Agent.rebuilt]) (by rw [hy]; rfl)
        exact yields_buildBelow_copied hσ hterminus hy hx hway hhead hchain hlast hyb hext hf
      | anyNode terminus =>
        obtain ⟨top, bottom, hway, rfl, hbelow, y, hy, hyb⟩ := haccords
        have hterminus := inner terminus (by simp [Agent.rebuilt]) (by rw [hy]; rfl)
        exact yields_buildBelow_copied hσ hterminus hy hx hway rfl
          (.cons_cons hbelow (.singleton _)) rfl hyb hext hf
      | overlay through above =>
        obtain rfl : above = through := hkeep
        obtain ⟨y, hy, -⟩ := id haccords
        have habove := inner above (by simp [Agent.rebuilt]) (by rw [hy]; rfl)
        exact habove.copied hσ hx haccords _ hext hf
      | greenGrass through =>
        obtain ⟨y, hy, -⟩ := id haccords.2
        have hthrough := inner through (by simp [Agent.rebuilt]) (by rw [hy]; rfl)
        exact hthrough.copied hσ hx haccords.2 _ hext hf
      | notMatch q => exact hcopy
      | matchAll qs => exact hcopy
      | matchAny qs => exact hcopy
      | slave through slaveRoot => exact hkeep.elim

end Workshop

/-! ## Searches -/

theorem View.get?_singleton (c : Couplings) : View.get? [c] = c.get? := by
  funext q
  rw [View.get?_cons]
  exact Option.or_none

theorem View.path?_singleton (c : Couplings) : View.path? [c] = c.path? := by
  funext q
  simp [View.path?]

/-- What a search without a master couples accords with it, and its root stands for the subject. -/
theorem Scene.accordant_of_search {scene : Scene s} (hw : scene.WellFormed) {plan : Plan}
    {x : NodeId} {c : Couplings} (hx : x < scene.watermark)
    (h : scene.search plan (.node x) [] = .ok (some c)) :
    scene.Accordant [c] ∧ StandsFor scene.forest c.get? plan.root x := by
  rw [search, searchFor] at h
  obtain ⟨pr, pr', hkey, hrestrict, rfl⟩ := gives_attempt.mp (Walk.gives_of_solve_eq_some h)
  obtain ⟨hruns, hresiduals, -⟩ := gives_restrict.mp hrestrict
  obtain ⟨hroot, hsettled⟩ :=
    settled_attempt hw scene.inherited_lt_watermark (by simpa using hx) hkey hruns
  have hview : (fun q => (pr'.couplings.get? q).or (View.get? [] q)) = pr'.couplings.get? := by
    funext q
    exact Option.or_none
  constructor
  · intro q key hq
    rw [View.get?_singleton] at hq
    obtain ⟨hlow, links, ⟨path, hd, hpath, hl⟩, -⟩ := hsettled q key hq
    rw [View.get?_singleton, View.path?_singleton, ← hview]
    exact ⟨hd.accordsWith hw hpath fun l hmem hk => stands_of_meets hresiduals (hl l hmem hk), hlow⟩
  · obtain ⟨key, hkey, hcompare⟩ := exists_of_meets hresiduals hroot
    obtain ⟨y, rfl, hyx⟩ := Key.exists_of_compare_node hcompare
    exact ⟨y, Option.or_none.symm.trans hkey, hyx⟩

/-! ## Rules -/

section Rebuilt

variable {α β : Type}

theorem Agent.rebuilt_map (g : α → β) (agent : Agent α) :
    (agent.map g).rebuilt = agent.rebuilt.map g := by
  cases agent with
  | standard value members => simp [map, rebuilt, List.flatMap_map, List.map_flatMap]
  | _ => rfl

theorem Agent.rebuilt_subset (agent : Agent α) : agent.rebuilt ⊆ agent.children := by
  cases agent <;> simp [rebuilt, children]

theorem Agent.keeps_map {g : α → β} (hg : Function.Injective g) {agent : Agent α} :
    (agent.map g).Keeps ↔ agent.Keeps := by
  cases agent <;> simp [map, Keeps, hg.eq_iff]

end Rebuilt

namespace PatternSet

variable {ps ps' : PatternSet s} {search root p : PatternId} {mode : Mode}

theorem map_val_pattern (ps : PatternSet s) (p : PatternId) :
    (ps.pattern p).agent.map Fin.val = (ps.get p).agent :=
  Agent.map_val_below p (ps.get p).agent fun _ hc => ps.child_lt_of_mem hc

/-- The patterns that a rule without a replacement rebuilds keep what they match if those that its
search pattern refers to do. -/
theorem keeps_of_mem_rebuiltFrom (hps : ps.WellFormed)
    (h : (Draft.wrap search none mode).run ps = .ok root ps')
    (hplain : ∀ q ∈ ps.reachable search, (ps.pattern q).agent.rewrites = false) :
    ∀ q ∈ ps'.rebuiltFrom root, (ps'.pattern q).agent.Keeps := by
  obtain ⟨-, hsearch, -, -⟩ := hps.wrap_eq h
  obtain ⟨hget, hoverlay, hroot⟩ := hps.get_wrap h
  have hold {q} (hq : q ∈ ps.reachable search) : ps'.pattern q = ps.pattern q :=
    pattern_eq_of_get_eq (hget q (Nat.lt_of_le_of_lt (le_of_mem_reachable hq) hsearch))
  have hrebuilt {q} {c : Fin q} (hc : c ∈ (ps'.pattern q).agent.rebuilt) :
      c.val ∈ (ps'.get q).agent.rebuilt := by
    rw [← map_val_pattern, Agent.rebuilt_map]
    exact List.mem_map_of_mem hc
  have hreached : ∀ q ∈ ps'.rebuiltFrom root, q ∈ ps.reachable search ∨ q = ps.size ∨
      ps'.get q = ⟨Schema.nodeKind, .stuff ps.size none⟩ := by
    refine forall_mem_reach (fun q hq c hc => ?_) (by simp) ?_
    · rcases hq with hq | rfl | hq
      · rw [hold hq] at hc
        exact .inl (mem_reachable_of_mem_children hq (Agent.rebuilt_subset _ hc))
      · have := hrebuilt hc
        rw [hoverlay] at this
        obtain rfl : c.val = search := by simpa [Agent.rebuilt] using this
        exact .inl self_mem_reachable
      · have := hrebuilt hc
        rw [hq] at this
        exact .inr (.inl (by simpa [Agent.rebuilt] using this))
    · rcases hroot with rfl | ⟨rfl, hstuff⟩
      · exact .inr (.inl rfl)
      · exact .inr (.inr hstuff)
  intro q hq
  rcases hreached q hq with hq | rfl | hq
  · rw [hold hq]
    exact Agent.keeps_of_rewrites_eq_false (hplain q hq)
  · rw [← Agent.keeps_map (fun _ _ => Fin.ext), map_val_pattern, hoverlay]
    rfl
  · rw [← Agent.keeps_map (fun _ _ => Fin.ext), map_val_pattern, hq]
    trivial

end PatternSet

namespace Rule

variable {name : String} {patterns : PatternSet s} {search : PatternId} {mode : Mode} {r : Rule s}

/-- One round of a rule without a replacement, whose search pattern changes nothing, puts a copy of
the subject in its place: whatever the search after it comes to, the rebuild has worked out. -/
theorem compare_apply_once (hs : s.WellFormed) (hps : patterns.WellFormed)
    (hr : Rule.make name patterns search none mode = .ok r)
    (hplain : ∀ q ∈ patterns.reachable search, (patterns.pattern q).agent.rewrites = false)
    {f : Forest s} (hf : f.WellFormed) {x : NodeId} (hx : x < f.size) {c : Couplings}
    (hfind : r.find f x = .ok (some c)) :
    ∃ (y : NodeId) (f' : Forest s), f.Extends f' ∧ f'.compare x y = .eq ∧
      (∀ e, Scene.search ⟨f', r.patterns, f.size⟩ r.plan.search (.node y) [] = .error e →
        r.apply ⟨1, false⟩ x f = .error (.fault e) f') ∧
      ∀ found, Scene.search ⟨f', r.patterns, f.size⟩ r.plan.search (.node y) [] = .ok found →
        r.apply ⟨1, false⟩ x f = .ok ⟨y, 1⟩ f' := by
  obtain ⟨root, hwrap, hplan⟩ := exists_wrap_of_make hr
  have hw : Scene.WellFormed ⟨f, r.patterns, f.size⟩ := ⟨hs, hf.wellShaped, (hps.wrap hwrap).1⟩
  have hroot : r.plan.root = root := by rw [hplan, RulePlan.root_make]
  have hsearch : r.plan.search.root = root := by
    rw [hplan, RulePlan.search_make]
    rfl
  obtain ⟨hacc, hstands⟩ := Scene.accordant_of_search hw hx hfind
  rw [hsearch, ← View.get?_singleton] at hstands
  obtain ⟨x', hx', hcompare⟩ := hstands
  have hlow : x' < f.size := (hacc root _ hx').2 x' (by simp)
  have hbare := fits_default hs (Nat.zero_lt_of_lt (hf.get hx).kind_lt)
  have hcopies := Workshop.copies_build ⟨r.patterns, r.name, ⟨1, false⟩⟩ r.plan hbare hacc
    (PatternSet.keeps_of_mem_rebuiltFrom hps hwrap hplain) PatternSet.self_mem_rebuiltFrom
    (by rw [hx']; rfl)
  obtain ⟨y, f', hbuild, hext, -, hcopied, -⟩ := (hcopies.final (Terms.single_copying hx') (.refl f)
    hf (by simp : ∀ key ∈ none, _)).exists_ok
  obtain ⟨_, ⟨⟩, hsame⟩ := (hcopied _ hx').exists_node
  refine ⟨y, f', hext, ((hext.same ⟨hlow, hx, hcompare⟩).symm.trans hsame).compare_eq, ?_⟩
  rw [apply_eq, hroot]
  constructor
  · intro e he
    refine (Grow.rounds_succ ?_ hbuild).trans (Grow.rounds_of_error he)
    exact hfind
  · intro found hfound
    refine (Grow.rounds_succ ?_ hbuild).trans (Grow.rounds_zero hfound)
    exact hfind

/-- A list that starts and ends with empty lists, inside of another list. -/
def nestedLists : Forest Scene.lists :=
  ((((Forest.empty.push ⟨0, none, []⟩).push ⟨1, none, [.sequence []]⟩).push
    ⟨1, none, [.sequence []]⟩).push ⟨1, none, [.sequence [1, 0, 2]]⟩).push
    ⟨1, none, [.sequence [3, 0]]⟩

/-- A list that starts and ends with the same empty list. -/
def sameEnds : PatternSet Scene.lists :=
  ((PatternSet.empty.push ⟨1, .standard none [.sequence []]⟩).push ⟨0, .star none⟩).push
    ⟨1, .standard none [.sequence [0, 1, 0]]⟩

/-- The rule that looks for such a list everywhere. -/
def findSameEnds : Rule Scene.lists where
  name := "same ends"
  patterns := (sameEnds.push ⟨0, .overlay 2 2⟩).push ⟨0, .stuff 3 none⟩
  search := 2
  replace := none
  mode := .search
  plan := RulePlan.make ((sameEnds.push ⟨0, .overlay 2 2⟩).push ⟨0, .stuff 3 none⟩) 4 []

theorem wellFormed_sameEnds : sameEnds.WellFormed :=
  ((PatternSet.wellFormed_empty.insert
    (rfl : PatternSet.insert _ 1 (.standard none [.sequence []]) = .ok _)).insert
    (rfl : PatternSet.insert _ 0 (.star none) = .ok _)).insert
    (rfl : PatternSet.insert _ 1 (.standard none [.sequence [0, 1, 0]]) = .ok _)

theorem wellFormed_nestedLists : nestedLists.WellFormed := by
  have fits {f : Forest Scene.lists} {n : Node NodeId} (h : f.check n = .ok ()) :
      n.Fits Scene.lists :=
    (Forest.check_eq_ok_iff.mp h).1
  exact ((((Forest.wellFormed_empty.push (fits (f := .empty) rfl)).push
    (fits (f := .empty) rfl)).push (fits (f := .empty) rfl)).push
    (fits (f := nestedLists) rfl)).push (fits (f := nestedLists) rfl)

/-- What is put together again at the place of the match is part of a copy of all that is above
it. -/
theorem compare_apply_once_nestedLists :
    findSameEnds.find nestedLists 4 = .ok (some
      ⟨[(1, .run true [0]), (0, .node 1), (2, .node 3), (3, .node 3), (4, .node 4)],
        [(4, [⟨4, none, 0, 0⟩, ⟨3, some 0, 0, 0⟩])]⟩) ∧
      ∃ f', findSameEnds.apply ⟨1, false⟩ 4 nestedLists = .ok ⟨9, 1⟩ f' ∧ f'.compare 4 9 = .eq := by
  have hfind : findSameEnds.find nestedLists 4 = .ok (some
      ⟨[(1, .run true [0]), (0, .node 1), (2, .node 3), (3, .node 3), (4, .node 4)],
        [(4, [⟨4, none, 0, 0⟩, ⟨3, some 0, 0, 0⟩])]⟩) := by
    decide +kernel
  have hplain : ∀ q ∈ sameEnds.reachable 2, (sameEnds.pattern q).agent.rewrites = false := by
    decide +kernel
  have hmake : Rule.make "same ends" sameEnds 2 none .search = .ok findSameEnds := rfl
  have happly : (findSameEnds.apply ⟨1, false⟩ 4).run' nestedLists = some ⟨9, 1⟩ := by
    decide +kernel
  obtain ⟨y, f', -, hcompare, herror, hok⟩ :=
    compare_apply_once (Schema.wellFormed_base.define Scene.define_lists) wellFormed_sameEnds hmake
      hplain wellFormed_nestedLists (by decide) hfind
  refine ⟨hfind, f', ?_⟩
  cases hsecond : Scene.search ⟨f', findSameEnds.patterns, nestedLists.size⟩
    findSameEnds.plan.search (.node y) [] with
  | error e =>
    unfold EStateM.run' EStateM.run at happly
    rw [herror e hsecond] at happly
    cases happly
  | ok found =>
    have hrun := hok found hsecond
    unfold EStateM.run' EStateM.run at happly
    rw [hrun] at happly
    cases happly
    exact ⟨hrun, hcompare⟩

end Rule

end Espalier
