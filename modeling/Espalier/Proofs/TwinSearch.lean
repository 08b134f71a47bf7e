import Espalier.Proofs.Recording
import Espalier.Proofs.Twins

/-!
# A search does not tell twins apart

Searches of one plan for twin subjects go in lock-step: they ask for the same choices, and what is
coupled on one side has a twin on the other.  Ids are read in two places only.  Green grass compares
them with the watermark, which is a mark that twins are on the same side of, and the order of
subtrees has a short cut for equal ids, which does not change what is equal.
-/

namespace Espalier

variable {s : Schema} {P P' : ForestPair s}

/-! ## What a search handles -/

/-- The nodes of two keys are twins. -/
inductive Key.Twins (P : ForestPair s) : Key → Key → Prop where
  | node {x y : NodeId} (h : P.Twins x y) : Twins P (.node x) (.node y)
  | run {ordered : Bool} {xs ys : List NodeId} (h : List.Forall₂ P.Twins xs ys) :
      Twins P (.run ordered xs) (.run ordered ys)

namespace Key.Twins

variable {key key' l l' : Key}

theorem alike (h : key.Twins P key') : key.Alike P.Twins key' := by
  cases h with
  | node h => exact .single (.some h)
  | @run ordered xs ys h =>
    cases ordered with
    | true => exact .sequence h
    | false => exact .collection (rel_of_forall₂ h)

theorem compare_eq_iff (hk : key.Twins P key') (hl : l.Twins P l') :
    key.compare P.left l = .eq ↔ key'.compare P.right l' = .eq := by
  rw [Key.compare_eq_iff_alike, Key.compare_eq_iff_alike]
  constructor
  · intro h
    refine Member.Alike.mono ((hk.alike.flip.comp h).comp hl.alike) ?_
    rintro x' - y' - ⟨y, ⟨x, hx, hxy⟩, hy⟩
    exact hx.compare_right hy hxy
  · intro h
    refine Member.Alike.mono ((hk.alike.comp h).comp hl.alike.flip) ?_
    rintro x - y - ⟨y', ⟨x', hx, hxy⟩, hy⟩
    exact hx.compare_left hy hxy

end Key.Twins

/-- Two sites stand in the same place of twins. -/
structure Site.Twins (P : ForestPair s) (a b : Site) : Prop where
  node : P.Twins a.node b.node
  parent_eq : a.parent = b.parent
  member_eq : a.member = b.member
  position_eq : a.position = b.position

/-- Two decided links agree but for their keys. -/
structure DecidedLink.Twins {α : Type} (P : ForestPair s) (l l' : DecidedLink α) : Prop where
  slot_eq : l.slot = l'.slot
  target_eq : l.target = l'.target
  kind_eq : l.kind = l'.kind
  key : l.key.Twins P l'.key

/-- Two decisions agree but for the nodes in them. -/
structure Decided.Twins {α : Type} (P : ForestPair s) (d d' : Decided α) : Prop where
  links : List.Forall₂ (DecidedLink.Twins P) d.links d'.links
  evaluator_eq : d.evaluator = d'.evaluator
  path : Option.Rel (List.Forall₂ (Site.Twins P)) d.path d'.path

theorem rel_getElem? {α β : Type} {R : α → β → Prop} {xs : List α} {ys : List β}
    (h : List.Forall₂ R xs ys) (i : Nat) : Option.Rel R xs[i]? ys[i]? := by
  induction h generalizing i with
  | nil => exact .none
  | cons hxy _ ih =>
    cases i with
    | zero => exact .some hxy
    | succ i => exact ih i

theorem forall₂_eraseIdx {α β : Type} {R : α → β → Prop} {xs : List α} {ys : List β}
    (h : List.Forall₂ R xs ys) (i : Nat) : List.Forall₂ R (xs.eraseIdx i) (ys.eraseIdx i) := by
  induction h generalizing i with
  | nil => exact .nil
  | cons hxy hs ih =>
    cases i with
    | zero => exact hs
    | succ i => exact .cons hxy (ih i)

theorem forall₂_dropLast {α β : Type} {R : α → β → Prop} {xs : List α} {ys : List β}
    (h : List.Forall₂ R xs ys) : List.Forall₂ R xs.dropLast ys.dropLast := by
  rw [List.dropLast_eq_take, List.dropLast_eq_take, h.length_eq]
  exact List.forall₂_take _ h

theorem eq_none_of_rel {α β : Type} {R : α → β → Prop} {b : Option β} (h : Option.Rel R none b) :
    b = none := by
  cases h with
  | none => rfl

theorem rel_mono {α β : Type} {R R' : α → β → Prop} {a : Option α} {b : Option β}
    (h : Option.Rel R a b) (hR : ∀ x y, R x y → R' x y) : Option.Rel R' a b := by
  cases h with
  | none => exact .none
  | some h => exact .some (hR _ _ h)

theorem rel_or {α β : Type} {R : α → β → Prop} {a a' : Option α} {b b' : Option β}
    (h : Option.Rel R a b) (h' : Option.Rel R a' b') : Option.Rel R (a.or a') (b.or b') := by
  cases h with
  | none => exact h'
  | some h => exact .some h

theorem rel_lookup {α β : Type} {R : α → β → Prop} {es : List (PatternId × α)}
    {es' : List (PatternId × β)} (h : List.Forall₂ (fun e e' => e.1 = e'.1 ∧ R e.2 e'.2) es es')
    (p : PatternId) : Option.Rel R (es.lookup p) (es'.lookup p) := by
  induction h with
  | nil => exact .none
  | @cons e e' _ _ he _ ih =>
    obtain ⟨q, a⟩ := e
    obtain ⟨q', b⟩ := e'
    obtain ⟨rfl, hab⟩ : q = q' ∧ R a b := he
    rw [List.lookup_cons, List.lookup_cons]
    cases p == q with
    | true => exact .some hab
    | false => exact ih

/-! ## Walks -/

section Walk

variable {x y : NodeId}

theorem twins_childSites (h : P.Twins x y) (index : Nat) :
    List.Forall₂ (Site.Twins P) (P.left.childSites x index) (P.right.childSites y index) := by
  refine List.rel_flatMap (forall₂_zipIdx h.get.members 0) ?_
  rintro ⟨m, i⟩ ⟨m', _⟩ ⟨hm, rfl⟩
  refine List.rel_map ?_ (forall₂_zipIdx hm.forall₂_children 0)
  rintro ⟨c, j⟩ ⟨d, _⟩ ⟨hcd, rfl⟩
  exact ⟨hcd, rfl, rfl, rfl⟩

theorem twins_walkFrom {stack stack' : List Site} {sites sites' : Array Site}
    (hstack : List.Forall₂ (Site.Twins P) stack stack')
    (hsites : List.Forall₂ (Site.Twins P) sites.toList sites'.toList) :
    List.Forall₂ (Site.Twins P) (P.left.walkFrom stack sites).toList
      (P.right.walkFrom stack' sites').toList := by
  fun_induction P.left.walkFrom stack sites generalizing stack' sites' with
  | case1 sites =>
    cases hstack
    rw [Forest.walkFrom]
    exact hsites
  | case2 sites site stack ih =>
    cases hstack with
    | cons hsite hstack =>
      have hsize : sites.size = sites'.size := by simpa using hsites.length_eq
      rw [Forest.walkFrom]
      refine ih ?_ ?_
      · rw [← hsize]
        exact List.rel_append (twins_childSites hsite.node _) hstack
      · rw [Array.toList_push, Array.toList_push]
        exact List.rel_append hsites (.cons hsite .nil)

theorem twins_preorder (h : P.Twins x y) :
    List.Forall₂ (Site.Twins P) (P.left.preorder x).toList (P.right.preorder y).toList :=
  twins_walkFrom (.cons ⟨h, rfl, rfl, rfl⟩ .nil) .nil

theorem rel_getElem?_walk {walk walk' : Array Site}
    (h : List.Forall₂ (Site.Twins P) walk.toList walk'.toList) (i : Nat) :
    Option.Rel (Site.Twins P) walk[i]? walk'[i]? := by
  rw [← Array.getElem?_toList, ← Array.getElem?_toList]
  exact rel_getElem? h i

/-- The sites right below the root. -/
theorem twins_below {walk walk' : Array Site}
    (h : List.Forall₂ (Site.Twins P) walk.toList walk'.toList) :
    List.Forall₂ (fun e e' => Site.Twins P e.1 e'.1 ∧ e.2 = e'.2)
      (walk.toList.zipIdx.filter fun (site, _) => site.parent = some 0)
      (walk'.toList.zipIdx.filter fun (site, _) => site.parent = some 0) := by
  refine List.rel_filter ?_ (forall₂_zipIdx h 0)
  rintro ⟨site, i⟩ ⟨site', _⟩ ⟨hsite, rfl⟩
  have hparent : site.parent = site'.parent := hsite.parent_eq
  simp [hparent]

theorem twins_pathTo {walk walk' : Array Site}
    (h : List.Forall₂ (Site.Twins P) walk.toList walk'.toList) (i : Nat) :
    List.Forall₂ (Site.Twins P) (pathTo walk i) (pathTo walk' i) := by
  induction i using Nat.strongRecOn with
  | ind i ih =>
    rw [pathTo, pathTo]
    have hrel := rel_getElem?_walk h i
    generalize walk[i]? = found at hrel
    generalize walk'[i]? = found' at hrel
    cases hrel with
    | none => exact .nil
    | @some site site' hsite =>
      dsimp only
      rw [← hsite.parent_eq]
      cases site.parent with
      | none => exact .cons hsite .nil
      | some j =>
        dsimp only
        by_cases hj : j < i
        · rw [if_pos hj, if_pos hj]
          exact List.rel_append (ih j hj) (.cons hsite .nil)
        · rw [if_neg hj, if_neg hj]
          exact .cons hsite .nil

end Walk

/-! ## Decisions -/

section Containers

variable {α : Type} {isStar : α → Bool} {xs ys : List NodeId}

theorem mirrors_sequenceLinks (hxy : List.Forall₂ P.Twins xs ys) (slot used : Nat) (ps : List α) :
    Attempt.Mirrors (List.Forall₂ (DecidedLink.Twins P)) (sequenceLinks isStar slot used ps xs)
      (sequenceLinks isStar slot used ps ys) := by
  induction ps generalizing slot used xs ys with
  | nil =>
    cases hxy with
    | nil => exact Attempt.mirrors_pure .nil
    | cons _ _ => exact Attempt.mirrors_mismatch _
  | cons p ps ih =>
    rw [sequenceLinks.eq_def, sequenceLinks.eq_def]
    dsimp only
    by_cases hp : isStar p = true
    · rw [if_pos hp, if_pos hp, ← hxy.length_eq]
      by_cases hlast : ps.isEmpty = true
      · rw [if_pos hlast, if_pos hlast]
        exact Attempt.mirrors_pure (.cons ⟨rfl, rfl, rfl, .run hxy⟩ .nil)
      · rw [if_neg hlast, if_neg hlast]
        split
        next =>
          refine Attempt.mirrors_bind (Attempt.mirrors_refl _) ?_
          rintro stop _ rfl
          refine Attempt.mirrors_bind (ih (List.forall₂_drop _ hxy) _ _) ?_
          intro rest rest' hrest
          exact Attempt.mirrors_pure (.cons ⟨rfl, rfl, rfl, .run (List.forall₂_take _ hxy)⟩ hrest)
        next => exact Attempt.mirrors_mismatch _
    · rw [if_neg hp, if_neg hp]
      cases hxy with
      | nil => exact Attempt.mirrors_mismatch _
      | cons hx hxy =>
        refine Attempt.mirrors_bind (ih hxy _ _) ?_
        intro rest rest' hrest
        exact Attempt.mirrors_pure (.cons ⟨rfl, rfl, rfl, .node hx⟩ hrest)

theorem mirrors_assign (hxy : List.Forall₂ P.Twins xs ys) (slot : Nat) (ps : List α) :
    Attempt.Mirrors (fun r r' => List.Forall₂ (DecidedLink.Twins P) r.1 r'.1 ∧
      List.Forall₂ P.Twins r.2 r'.2) (assign isStar slot ps xs) (assign isStar slot ps ys) := by
  induction ps generalizing slot xs ys with
  | nil => exact Attempt.mirrors_pure ⟨.nil, hxy⟩
  | cons p ps ih =>
    rw [assign, assign]
    by_cases hp : isStar p = true
    · rw [if_pos hp, if_pos hp]
      exact ih hxy _
    · rw [if_neg hp, if_neg hp, ← hxy.length_eq]
      refine Attempt.mirrors_bind (Attempt.mirrors_refl _) ?_
      rintro i _ rfl
      have hrel := rel_getElem? hxy i
      generalize xs[i]? = found at hrel
      generalize ys[i]? = found' at hrel
      cases hrel with
      | none => exact Attempt.mirrors_mismatch _
      | some hx =>
        refine Attempt.mirrors_bind (ih (forall₂_eraseIdx hxy i) _) ?_
        rintro ⟨links, rest⟩ ⟨links', rest'⟩ ⟨hlinks, hrest⟩
        exact Attempt.mirrors_pure ⟨.cons ⟨rfl, rfl, rfl, .node hx⟩ hlinks, hrest⟩

theorem mirrors_collectionLinks (hxy : List.Forall₂ P.Twins xs ys) (slot : Nat) (ps : List α) :
    Attempt.Mirrors (List.Forall₂ (DecidedLink.Twins P)) (collectionLinks isStar slot ps xs)
      (collectionLinks isStar slot ps ys) := by
  rw [collectionLinks, collectionLinks, ← hxy.length_eq]
  split
  next =>
    split
    next =>
      refine Attempt.mirrors_bind (mirrors_assign hxy slot ps) ?_
      intro r r' hr
      exact Attempt.mirrors_pure hr.1
    next => exact Attempt.mirrors_mismatch _
  next star i _ =>
    split
    next =>
      refine Attempt.mirrors_bind (mirrors_assign hxy slot ps) ?_
      rintro ⟨links, rest⟩ ⟨links', rest'⟩ ⟨hlinks, hrest⟩
      exact Attempt.mirrors_pure (List.rel_append hlinks (.cons ⟨rfl, rfl, rfl, .run hrest⟩ .nil))
    next => exact Attempt.mirrors_mismatch _

/-- The members of a pattern are held against those of twins alike.  The faults of members that do
not fit name the subject and may differ, but there are none. -/
theorem mirrors_membersDecided {misfit misfit' : Fault} {ms : List (Member α)}
    {subject subject' : List (Member NodeId)}
    (hfit : ms.map Member.category = subject.map Member.category)
    (h : List.Forall₂ (Member.Parallel P.Twins) subject subject') (slot : Nat) :
    Attempt.Mirrors (List.Forall₂ (DecidedLink.Twins P))
      (membersDecided isStar misfit slot ms subject)
      (membersDecided isStar misfit' slot ms subject') := by
  induction h generalizing ms slot with
  | nil =>
    cases ms with
    | nil => exact Attempt.mirrors_pure .nil
    | cons m ms => cases hfit
  | @cons x y xs ys hxy _ ih =>
    cases ms with
    | nil => cases hfit
    | cons m ms =>
      obtain ⟨hm, hms⟩ := List.cons.inj hfit
      have hrest (links links' : List (DecidedLink α))
          (h : List.Forall₂ (DecidedLink.Twins P) links links') :
          Attempt.Mirrors (List.Forall₂ (DecidedLink.Twins P))
            (do return links ++ (← membersDecided isStar misfit (slot + m.width) ms xs))
            (do return links' ++ (← membersDecided isStar misfit' (slot + m.width) ms ys)) := by
        refine Attempt.mirrors_bind (ih hms _) ?_
        intro rest rest' hrest
        exact Attempt.mirrors_pure (List.rel_append h hrest)
      cases hxy with
      | single hxy =>
        cases m with
        | single p =>
          cases p with
          | none => exact hrest [] [] .nil
          | some p =>
            cases hxy with
            | none => exact Attempt.mirrors_mismatch _
            | some hxy => exact hrest _ _ (.cons ⟨rfl, rfl, rfl, .node hxy⟩ .nil)
        | _ => cases hm
      | sequence hxy =>
        cases m with
        | sequence ps => exact Attempt.mirrors_bind (mirrors_sequenceLinks hxy _ _ _) hrest
        | _ => cases hm
      | collection hxy =>
        cases m with
        | collection ps => exact Attempt.mirrors_bind (mirrors_collectionLinks hxy _ _) hrest
        | _ => cases hm

end Containers

/-- What is decided on one side has its twin on the other. -/
def TwinLinks {α : Type} (P : ForestPair s) (r r' : List (DecidedLink α) × Option (List Site)) :
    Prop :=
  List.Forall₂ (DecidedLink.Twins P) r.1 r'.1 ∧ Option.Rel (List.Forall₂ (Site.Twins P)) r.2 r'.2

section Ways

variable {α : Type} {walk walk' : Array Site}

/-- Walks of twins are of one length, so both sides are offered the same choices. -/
theorem mirrors_stuffLinks (hwalk : List.Forall₂ (Site.Twins P) walk.toList walk'.toList)
    (terminus : α) (restriction : Option α) :
    Attempt.Mirrors (TwinLinks P) (stuffLinks terminus restriction walk)
      (stuffLinks terminus restriction walk') := by
  have hsize : walk.size = walk'.size := by simpa using hwalk.length_eq
  unfold stuffLinks
  rw [← hsize]
  refine Attempt.mirrors_bind (Attempt.mirrors_refl _) ?_
  rintro i _ rfl
  have hrel := rel_getElem?_walk hwalk i
  generalize walk[i]? = found at hrel
  generalize walk'[i]? = found' at hrel
  cases hrel with
  | none => exact Attempt.mirrors_mismatch _
  | some hsite =>
    have hpath := twins_pathTo hwalk i
    refine Attempt.mirrors_pure ⟨.cons ⟨rfl, rfl, rfl, .node hsite.node⟩ ?_, .some hpath⟩
    refine List.rel_flatMap (List.forall₂_same.mpr fun r _ => rfl) ?_
    rintro r _ rfl
    refine List.rel_map ?_ (forall₂_dropLast hpath)
    intro above above' habove
    exact ⟨rfl, rfl, rfl, .node habove.node⟩

theorem mirrors_anyNodeLinks (hwalk : List.Forall₂ (Site.Twins P) walk.toList walk'.toList)
    (terminus : α) :
    Attempt.Mirrors (TwinLinks P) (anyNodeLinks terminus walk) (anyNodeLinks terminus walk') := by
  have hbelow := twins_below hwalk
  unfold anyNodeLinks
  dsimp only
  generalize List.filter _ walk.toList.zipIdx = below at hbelow
  generalize List.filter _ walk'.toList.zipIdx = below' at hbelow
  have hempty : below'.isEmpty = below.isEmpty := by
    rw [Bool.eq_iff_iff, List.isEmpty_iff_length_eq_zero, List.isEmpty_iff_length_eq_zero,
      hbelow.length_eq]
  rw [hempty, ← hbelow.length_eq]
  split
  next => exact Attempt.mirrors_mismatch _
  next =>
    refine Attempt.mirrors_bind (Attempt.mirrors_refl _) ?_
    rintro i _ rfl
    have hrel := rel_getElem? hbelow i
    generalize below[i]? = found at hrel
    generalize below'[i]? = found' at hrel
    cases hrel with
    | none => exact Attempt.mirrors_mismatch _
    | @some e e' he =>
      obtain ⟨site, index⟩ := e
      obtain ⟨site', _⟩ := e'
      obtain ⟨hsite, rfl⟩ := he
      exact Attempt.mirrors_pure
        ⟨.cons ⟨rfl, rfl, rfl, .node hsite.node⟩ .nil, .some (twins_pathTo hwalk index)⟩

end Ways

/-- Two scenes of the same patterns, one in each forest of a pair, with their watermarks at a mark
of it. -/
structure Scene.Twins (P : ForestPair s) (scene scene' : Scene s) : Prop where
  forest_left : scene.forest = P.left
  forest_right : scene'.forest = P.right
  patterns_eq : scene'.patterns = scene.patterns
  mark : (scene.watermark, scene'.watermark) ∈ P.marks
  left : scene.WellFormed
  right : scene'.WellFormed

namespace Scene.Twins

section Decide

variable {scene scene' : Scene s} {p : PatternId}

theorem decideNode (hw : scene.Twins P scene') {x y : NodeId} (h : P.Twins x y) :
    Attempt.Mirrors (TwinLinks P) (scene.decideNode p x) (scene'.decideNode p y) := by
  obtain ⟨f, ps, w⟩ := scene
  obtain ⟨g, ps', v⟩ := scene'
  obtain ⟨rfl, rfl, rfl, hmark, hl, hr⟩ := hw
  have hkind : P.right.kind y = P.left.kind x := h.get.kind_eq.symm
  have hone {kind : LinkKind} (slot : Nat) (q : Fin p) :
      DecidedLink.Twins P ⟨slot, q, kind, .node x⟩ ⟨slot, q, kind, .node y⟩ :=
    ⟨rfl, rfl, rfl, .node h⟩
  unfold Scene.decideNode
  dsimp only
  rw [hkind]
  by_cases hk : s.isSubkind (P.left.kind x) (ps'.pattern p).kind = true
  · rw [if_pos hk, if_pos hk]
    have hfits := hl.patterns.fits hl.schema p
    generalize (ps'.pattern p).agent = agent at hfits
    cases agent with
    | standard value members =>
      dsimp only
      rw [← h.get.value_eq]
      by_cases hvalue : value.isSome ∧ (P.left.get x).value ≠ value
      · rw [if_pos hvalue, if_pos hvalue]
        exact Attempt.mirrors_mismatch _
      · rw [if_neg hvalue, if_neg hvalue, hl.forest.itemiseAs_eq hl.schema hk,
          hr.forest.itemiseAs_eq hr.schema (hkind ▸ hk)]
        refine Attempt.mirrors_bind (mirrors_membersDecided (hl.category_eq hk hfits.2.1)
          (List.forall₂_take _ h.get.members) 0) ?_
        intro links links' hlinks
        exact Attempt.mirrors_pure ⟨hlinks, .none⟩
    | star restriction => exact Attempt.mirrors_fault _
    | stuff terminus restriction => exact mirrors_stuffLinks (twins_preorder h) terminus restriction
    | anyNode terminus => exact mirrors_anyNodeLinks (twins_preorder h) terminus
    | greenGrass through =>
      have hlt : w ≤ x ↔ v ≤ y := by
        rw [← Nat.not_lt, ← Nat.not_lt]
        exact not_congr (h.lt_iff hmark)
      dsimp only
      by_cases hx : w ≤ x
      · rw [if_pos hx, if_pos (hlt.mp hx)]
        exact Attempt.mirrors_mismatch _
      · rw [if_neg hx, if_neg fun hy => hx (hlt.mpr hy)]
        exact Attempt.mirrors_pure ⟨.cons (hone 0 through) .nil, .none⟩
    | overlay through above => exact Attempt.mirrors_pure ⟨.cons (hone 0 through) .nil, .none⟩
    | slave through root => exact Attempt.mirrors_pure ⟨.cons (hone 0 through) .nil, .none⟩
    | notMatch q => exact Attempt.mirrors_pure ⟨.cons (hone 0 q) .nil, .none⟩
    | matchAll qs =>
      refine Attempt.mirrors_pure ⟨?_, .none⟩
      refine List.rel_map ?_ (List.forall₂_same.mpr fun e _ => rfl)
      rintro ⟨q, slot⟩ _ rfl
      exact hone slot q
    | matchAny qs =>
      refine Attempt.mirrors_bind (Attempt.mirrors_refl _) ?_
      rintro slot _ rfl
      cases qs[slot]? with
      | none => exact Attempt.mirrors_mismatch _
      | some q => exact Attempt.mirrors_pure ⟨.cons (hone slot q) .nil, .none⟩
  · rw [if_neg hk, if_neg hk]
    exact Attempt.mirrors_mismatch _

theorem decideLinks (hw : scene.Twins P scene') {key key' : Key} (h : key.Twins P key') :
    Attempt.Mirrors (TwinLinks P) (scene.decideLinks p key) (scene'.decideLinks p key') := by
  have hnode {x y : NodeId} (h : P.Twins x y) := hw.decideNode (p := p) h
  obtain ⟨f, ps, w⟩ := scene
  obtain ⟨g, ps', v⟩ := scene'
  obtain ⟨rfl, rfl, rfl, hmark, hl, hr⟩ := hw
  unfold Scene.decideLinks
  dsimp only
  cases h with
  | node h =>
    generalize (ps'.pattern p).agent = agent
    cases agent with
    | star restriction => exact Attempt.mirrors_fault _
    | _ => exact hnode h
  | @run ordered xs ys h =>
    have hall : (xs.all fun x => s.isSubkind (P.left.kind x) (ps'.pattern p).kind) =
        ys.all fun y => s.isSubkind (P.right.kind y) (ps'.pattern p).kind := by
      induction h with
      | nil => rfl
      | cons hxy _ ih =>
        have hkind : P.left.kind _ = P.right.kind _ := hxy.get.kind_eq
        rw [List.all_cons, List.all_cons, hkind, ih]
    generalize (ps'.pattern p).agent = agent
    cases agent with
    | star restriction =>
      dsimp only
      rw [hall]
      split
      next =>
        refine Attempt.mirrors_pure ⟨?_, .none⟩
        refine List.rel_flatMap (List.forall₂_same.mpr fun r _ => rfl) ?_
        rintro r _ rfl
        refine List.rel_map ?_ h
        intro x y hxy
        exact ⟨rfl, rfl, rfl, .node hxy⟩
      next => exact Attempt.mirrors_mismatch _
    | _ => exact Attempt.mirrors_fault _

theorem decide (hw : scene.Twins P scene') {key key' : Key} (h : key.Twins P key') :
    Attempt.Mirrors (Decided.Twins P) (scene.decide p key) (scene'.decide p key') := by
  unfold Scene.decide
  dsimp only
  rw [hw.patterns_eq]
  refine Attempt.mirrors_padTo _ ?_
  refine Attempt.mirrors_bind (hw.decideLinks h) ?_
  rintro ⟨links, path⟩ ⟨links', path'⟩ ⟨hlinks, hpath⟩
  exact Attempt.mirrors_pure ⟨hlinks, rfl, hpath⟩

end Decide

end Scene.Twins

/-! ## Attempts in lock-step -/

/-- The same star run of twins. -/
structure Pending.Twins {n : Nat} (P : ForestPair s) (run run' : Pending n) : Prop where
  scope_eq : run.scope = run'.scope
  link_eq : run.link = run'.link
  target_eq : run.target = run'.target
  key : run.key.Twins P run'.key

/-- The same region with the links of twins. -/
structure Region.Twins {n : Nat} (P : ForestPair s) (region region' : Region n) : Prop where
  scope_eq : region.scope = region'.scope
  pattern_eq : region.pattern = region'.pattern
  evaluator_eq : region.evaluator = region'.evaluator
  links : List.Forall₂ (DecidedLink.Twins P) region.links region'.links

/-- The same patterns are coupled, to twins.  Only what is coupled has a way on record. -/
structure Couplings.Twins (P : ForestPair s) (c c' : Couplings) : Prop where
  keys : List.Forall₂ (fun e e' => e.1 = e'.1 ∧ e.2.Twins P e'.2) c.keys c'.keys
  paths : List.Forall₂ (fun e e' => e.1 = e'.1 ∧ List.Forall₂ (Site.Twins P) e.2 e'.2)
    c.paths c'.paths
  keyed : ∀ p, (c.path? p).isSome = true → (c.get? p).isSome = true

namespace Couplings.Twins

variable {c c' : Couplings}

theorem get? (h : c.Twins P c') (p : PatternId) : Option.Rel (Key.Twins P) (c.get? p) (c'.get? p) :=
  rel_lookup h.keys p

theorem path? (h : c.Twins P c') (p : PatternId) :
    Option.Rel (List.Forall₂ (Site.Twins P)) (c.path? p) (c'.path? p) :=
  rel_lookup h.paths p

end Couplings.Twins

theorem isSome_eq_of_rel {α β : Type} {R : α → β → Prop} {a : Option α} {b : Option β}
    (h : Option.Rel R a b) : a.isSome = b.isSome := by
  cases h <;> rfl

/-- Two attempts have come equally far. -/
structure Progress.Twins {n : Nat} (P : ForestPair s) (pr pr' : Progress n) : Prop where
  couplings : pr.couplings.Twins P pr'.couplings
  residuals : List.Forall₂ (fun e e' => e.1 = e'.1 ∧ e.2.Twins P e'.2) pr.residuals pr'.residuals
  pending : List.Forall₂ (Pending.Twins P) pr.pending pr'.pending
  regions : List.Forall₂ (Region.Twins P) pr.regions pr'.regions

namespace Progress.Twins

variable {n : Nat} {pr pr' : Progress n} {p : PatternId} {key key' : Key}

theorem start : (Progress.start : Progress n).Twins P Progress.start :=
  ⟨⟨.nil, .nil, fun p hp => by cases hp⟩, .nil, .nil, .nil⟩

theorem addResidual (h : pr.Twins P pr') (p : PatternId) (hkey : key.Twins P key') :
    (pr.addResidual p key).Twins P (pr'.addResidual p key') where
  __ := h
  residuals := List.rel_append h.residuals (.cons ⟨rfl, hkey⟩ .nil)

theorem addPending (h : pr.Twins P pr') {run run' : Pending n} (hrun : run.Twins P run') :
    (pr.addPending run).Twins P (pr'.addPending run') where
  __ := h
  pending := List.rel_append h.pending (.cons hrun .nil)

theorem addRegion (h : pr.Twins P pr') {region region' : Region n}
    (hregion : region.Twins P region') :
    (pr.addRegion region).Twins P (pr'.addRegion region') where
  __ := h
  regions := List.rel_append h.regions (.cons hregion .nil)

theorem coupled (h : pr.Twins P pr') (p : PatternId) (hkey : key.Twins P key') :
    (pr.coupled p key).Twins P (pr'.coupled p key') where
  couplings := {
    keys := .cons ⟨rfl, hkey⟩ h.couplings.keys
    paths := h.couplings.paths
    keyed := by
      intro q hq
      rw [Progress.get?_coupled]
      split
      next => rfl
      next => exact h.couplings.keyed q hq }
  residuals := h.residuals
  pending := h.pending
  regions := h.regions

theorem recordPath (h : pr.Twins P pr') (hp : (pr.couplings.get? p).isSome = true)
    {path path' : Option (List Site)}
    (hpath : Option.Rel (List.Forall₂ (Site.Twins P)) path path') :
    (pr.recordPath p path).Twins P (pr'.recordPath p path') := by
  cases hpath with
  | none => exact h
  | @some sites sites' hsites =>
    refine ⟨⟨h.couplings.keys, .cons ⟨rfl, hsites⟩ h.couplings.paths, ?_⟩, h.residuals, h.pending,
      h.regions⟩
    intro q hq
    by_cases hqp : q = p
    · exact hqp ▸ hp
    · refine h.couplings.keyed q ?_
      rw [← Progress.path?_recordPath_of_ne pr p (some sites) hqp]
      exact hq

theorem links_castLE {m : Nat} (h : p ≤ m) {links links' : List (DecidedLink (Fin p))}
    (hlinks : List.Forall₂ (DecidedLink.Twins P) links links') :
    List.Forall₂ (DecidedLink.Twins P) (links.map (·.map (·.castLE h)))
      (links'.map (·.map (·.castLE h))) := by
  refine List.rel_map ?_ hlinks
  intro l l' hl
  exact ⟨hl.slot_eq, congrArg (·.castLE h) hl.target_eq, hl.kind_eq, hl.key⟩

theorem close (hpr : pr.Twins P pr') (h : p ≤ n) (scope : Nat) {d d' : Decided (Fin p)}
    (hd : d.Twins P d') : (pr.close h scope d).Twins P (pr'.close h scope d') := by
  have habnormal : List.Forall₂ (DecidedLink.Twins P) (d.links.filter fun l => l.kind = .abnormal)
      (d'.links.filter fun l => l.kind = .abnormal) := by
    refine List.rel_filter ?_ hd.links
    intro l l' hl
    simp [hl.kind_eq]
  rw [Progress.close, Progress.close, ← hd.evaluator_eq]
  cases d.evaluator with
  | none => exact hpr
  | some evaluator =>
    have hempty : (d'.links.filter fun l => l.kind = .abnormal).isEmpty =
        (d.links.filter fun l => l.kind = .abnormal).isEmpty := by
      rw [Bool.eq_iff_iff, List.isEmpty_iff_length_eq_zero, List.isEmpty_iff_length_eq_zero,
        habnormal.length_eq]
    dsimp only
    rw [hempty]
    split
    next => exact hpr
    next => exact hpr.addRegion ⟨rfl, rfl, rfl, links_castLE h habnormal⟩

/-- What is coupled on one side is so on the other. -/
theorem couple (hpr : pr.Twins P pr') (p : PatternId) (hkey : key.Twins P key') :
    Attempt.Mirrors (fun a b => a.Twins P b ∧ (a.couplings.get? p).isSome = true) (pr.couple p key)
      (pr'.couple p key') := by
  rw [Progress.couple, Progress.couple, Couplings.couple, Couplings.couple,
    ← isSome_eq_of_rel (hpr.couplings.get? p)]
  by_cases hp : (pr.couplings.get? p).isSome = true
  · rw [if_pos hp, if_pos hp]
    exact Attempt.mirrors_fault _
  · rw [if_neg hp, if_neg hp]
    refine Attempt.mirrors_pure ⟨hpr.coupled p hkey, ?_⟩
    change ((pr.coupled p key).couplings.get? p).isSome = true
    rw [Progress.get?_coupled, if_pos rfl]
    rfl

end Progress.Twins

namespace Scene.Twins

variable {scene scene' : Scene s} {plan : Plan} {root p : PatternId} {pr pr' : Progress root}

theorem key (hw : scene.Twins P scene') {h : p ≤ root} {scope : Nat} {link : LinkId}
    {subject subject' : Key} (hsubject : subject.Twins P subject') (hpr : pr.Twins P pr') :
    Attempt.Mirrors (Progress.Twins P) (scene.key plan root p h scope link subject pr)
      (scene'.key plan root p h scope link subject' pr') := by
  induction p using Nat.strongRecOn generalizing scope link subject subject' pr pr' with
  | ind p ih =>
    cases hk : (plan.scope scope).isKeyer link with
    | false =>
      rw [key_of_not_isKeyer hk, key_of_not_isKeyer hk]
      exact Attempt.mirrors_pure (hpr.addResidual p hsubject)
    | true =>
      rw [key_of_isKeyer hk, key_of_isKeyer hk]
      refine Attempt.mirrors_bind (hpr.couple p hsubject) ?_
      rintro pr₁ pr₁' ⟨hpr₁, hp⟩
      refine Attempt.mirrors_bind (hw.decide hsubject) ?_
      intro d d' hd
      refine Attempt.mirrors_bind
        (Attempt.mirrors_foldlM hd.links (hpr₁.recordPath hp hd.path) ?_) ?_
      · rintro pr₂ pr₂' ⟨slot, target, kind, key⟩ ⟨slot', target', kind', key'⟩ hpr₂ hl
        obtain ⟨rfl, rfl, rfl, hkey⟩ : slot = slot' ∧ target = target' ∧ kind = kind' ∧
            key.Twins P key' :=
          ⟨hl.slot_eq, hl.target_eq, hl.kind_eq, hl.key⟩
        cases kind with
        | normal => exact ih target.val target.isLt hkey hpr₂
        | multiplicity => exact Attempt.mirrors_pure (hpr₂.addPending ⟨rfl, rfl, rfl, hkey⟩)
        | abnormal => exact Attempt.mirrors_pure hpr₂
      · intro pr₂ pr₂' hpr₂
        exact Attempt.mirrors_pure (hpr₂.close h scope hd)

theorem keyRun (hw : scene.Twins P scene') {run run' : Pending root} (hrun : run.Twins P run')
    (hpr : pr.Twins P pr') :
    Attempt.Mirrors (Progress.Twins P) (scene.keyRun plan pr run)
      (scene'.keyRun plan pr' run') := by
  obtain ⟨scope, link, target, subject⟩ := run
  obtain ⟨scope', link', target', subject'⟩ := run'
  obtain ⟨rfl, rfl, rfl, hsubject⟩ :
      scope = scope' ∧ link = link' ∧ target = target' ∧ subject.Twins P subject' :=
    ⟨hrun.scope_eq, hrun.link_eq, hrun.target_eq, hrun.key⟩
  cases hk : (plan.scope scope).isKeyer link with
  | false =>
    rw [Scene.keyRun, Scene.keyRun, hk]
    exact Attempt.mirrors_pure (hpr.addResidual target.val hsubject)
  | true =>
    rw [keyRun_of_isKeyer hk, keyRun_of_isKeyer hk]
    refine Attempt.mirrors_bind (hpr.couple target.val hsubject) ?_
    rintro pr₁ pr₁' ⟨hpr₁, -⟩
    refine Attempt.mirrors_bind (hw.decide hsubject) ?_
    intro d d' hd
    refine Attempt.mirrors_pure ?_
    rw [Progress.closeRun, Progress.closeRun, ← hd.evaluator_eq]
    cases d.evaluator with
    | none => exact hpr₁
    | some evaluator =>
      exact hpr₁.addRegion ⟨rfl, rfl, rfl, Progress.Twins.links_castLE _ hd.links⟩

end Scene.Twins

/-- Stores that hold twins, one for each search around the current one. -/
abbrev View.Twins (P : ForestPair s) : View → View → Prop := List.Forall₂ (Couplings.Twins P)

namespace View.Twins

variable {view view' : View} {c c' : Couplings}

theorem get? (h : View.Twins P view view') (p : PatternId) :
    Option.Rel (Key.Twins P) (view.get? p) (view'.get? p) := by
  induction h with
  | nil => exact .none
  | @cons c c' view view' hc _ ih =>
    have hrel := hc.get? p
    rw [View.get?, View.get?, List.findSome?_cons, List.findSome?_cons]
    generalize c.get? p = found at hrel
    generalize c'.get? p = found' at hrel
    cases hrel with
    | none => exact ih
    | some h => exact .some h

theorem restrict_eq (h : View.Twins P view view') (hc : c.Twins P c') (p : PatternId)
    {key key' : Key} (hkey : key.Twins P key') :
    view.restrict P.left c p key = view'.restrict P.right c' p key' := by
  have hbound := rel_or (hc.get? p) (h.get? p)
  rw [View.restrict, View.restrict]
  generalize (c.get? p).or (view.get? p) = bound at hbound
  generalize (c'.get? p).or (view'.get? p) = bound' at hbound
  cases hbound with
  | none => rfl
  | some hbound =>
    dsimp only
    simp only [hbound.compare_eq_iff hkey]

end View.Twins

namespace Scene.Twins

variable {scene scene' : Scene s} {plan : Plan} {root p : PatternId} {pr pr' : Progress root}

/-- Searches for twins come to the same. -/
def Inner (P : ForestPair s)
    (inner inner' : Fin root → Plan → Key → View → Except Fault (Option Couplings)) : Prop :=
  ∀ (t : Fin root) (plan : Plan) (key key' : Key) (view view' : View), key.Twins P key' →
    View.Twins P view view' →
    Walk.SolvesAlike (Couplings.Twins P) (inner t plan key view) (inner' t plan key' view')

section Restrict

variable {inner inner' : Fin root → Plan → Key → View → Except Fault (Option Couplings)}
  {view view' : View}

theorem allMatch_eq_of_inner (hinner : Inner P inner inner') (hview : View.Twins P view view')
    (scope : Nat) (p : PatternId) {links links' : List (DecidedLink (Fin root))}
    (hlinks : List.Forall₂ (DecidedLink.Twins P) links links') :
    allMatch plan view inner scope p links = allMatch plan view' inner' scope p links' := by
  induction hlinks with
  | nil => rfl
  | @cons l l' _ _ hl _ ih =>
    rw [allMatch, allMatch, ← hl.slot_eq, ← hl.target_eq, ih]
    cases (plan.scope scope).nested? p l.slot with
    | none => rfl
    | some nested =>
      have hsolve := hinner l.target nested l.key l'.key view view' hl.key hview
      dsimp only
      generalize inner l.target nested l.key view = r at hsolve
      generalize inner' l.target nested l'.key view' = r' at hsolve
      cases hsolve <;> rfl

theorem restrict (hw : scene.Twins P scene') (hinner : Inner P inner inner')
    (hview : View.Twins P view view') (hpr : pr.Twins P pr') :
    Attempt.Mirrors (Progress.Twins P) (scene.restrict plan view inner pr)
      (scene'.restrict plan view' inner' pr') := by
  refine Attempt.mirrors_bind (Attempt.mirrors_foldlM hpr.pending hpr ?_) ?_
  · intro pr pr' run run' hpr hrun
    exact hw.keyRun hrun hpr
  intro pr pr' hpr
  refine Attempt.mirrors_bind (Attempt.mirrors_forM hpr.residuals ?_) fun _ _ _ => ?_
  · rintro ⟨p, key⟩ ⟨_, key'⟩ ⟨rfl, hkey⟩
    dsimp only
    rw [hw.forest_left, hw.forest_right, hview.restrict_eq hpr.couplings p hkey]
    exact Attempt.mirrors_refl _
  refine Attempt.mirrors_bind (Attempt.mirrors_forM hpr.regions ?_) fun _ _ _ =>
    Attempt.mirrors_pure hpr
  intro region region' hregion
  have hsame : evaluate plan (pr.couplings :: view) inner region =
      evaluate plan (pr'.couplings :: view') inner' region' := by
    rw [evaluate, evaluate, hregion.scope_eq, hregion.pattern_eq, hregion.evaluator_eq,
      allMatch_eq_of_inner hinner (.cons hpr.couplings hview) _ _ hregion.links]
  rw [hsame]
  exact Attempt.mirrors_refl _

end Restrict

/-- Searches for one pattern in twins come to twin couplings, or to the same end. -/
theorem searchFor (hw : scene.Twins P scene') {subject subject' : Key}
    (hsubject : subject.Twins P subject') {view view' : View} (hview : View.Twins P view view') :
    Walk.SolvesAlike (Couplings.Twins P) (scene.searchFor root plan subject view)
      (scene'.searchFor root plan subject' view') := by
  induction root using Nat.strongRecOn generalizing plan subject subject' view view' with
  | ind root ih =>
    rw [Scene.searchFor, Scene.searchFor]
    apply Walk.solve_alike
    refine Attempt.mirrors_bind (hw.key hsubject .start) ?_
    intro pr pr' hpr
    refine Attempt.mirrors_bind (hw.restrict ?_ hview hpr) ?_
    · intro t plan key key' view view' hkey hview
      exact ih t.val t.isLt hkey hview
    · intro pr pr' hpr
      exact Attempt.mirrors_pure hpr.couplings

end Scene.Twins

end Espalier
