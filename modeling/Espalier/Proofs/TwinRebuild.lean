import Espalier.Proofs.Reproduction
import Espalier.Proofs.TwinSearch

/-!
# Building side by side

What is built of twins with one pattern is twins again, and where one side fails the other one fails
with the same error.  New nodes come after all that was there before on both sides, so that every
mark is kept, and none of them comes twice in one member, so that the schema refuses both sides or
none.
-/

namespace Espalier

variable {s : Schema}

/-! ## Computations side by side -/

/-- The nodes on either side are distinct, and came in between `P` and `P'`. -/
structure ForestPair.Fresh (P P' : ForestPair s) (xs ys : List NodeId) : Prop where
  left : P.left.Fresh P'.left xs
  right : P.right.Fresh P'.right ys

namespace ForestPair

variable {P : ForestPair s}

theorem checkMembers_eq {kind : String} {index : Nat} {layout : List MemberDecl}
    {ms ms' : List (Member NodeId)} (h : List.Forall₂ (Member.Parallel P.Twins) ms ms')
    (hnodup : ∀ items, Member.collection items ∈ ms → items.Nodup)
    (hnodup' : ∀ items, Member.collection items ∈ ms' → items.Nodup) :
    P.left.checkMembers kind index layout ms = P.right.checkMembers kind index layout ms' := by
  induction h generalizing index layout with
  | nil => cases layout <;> rfl
  | @cons m m' ms ms' hm _ ih =>
    cases layout with
    | nil => rfl
    | cons d layout =>
      have hlow : m.children.find? (P.left.size ≤ ·) = none := by
        rw [List.find?_eq_none]
        intro c hc
        obtain ⟨c', -, hcc'⟩ := exists_mem_of_forall₂ hm.forall₂_children hc
        simpa using hcc'.left_lt
      have hlow' : m'.children.find? (P.right.size ≤ ·) = none := by
        rw [List.find?_eq_none]
        intro c' hc'
        obtain ⟨c, -, hcc'⟩ := exists_mem_of_forall₂ hm.forall₂_children.flip hc'
        simpa using hcc'.right_lt
      have hfree : ¬ (m.category = .collection ∧ ¬ m.children.Nodup) := by
        rintro ⟨hcat, hrepeats⟩
        cases m with
        | collection items => exact hrepeats (hnodup items List.mem_cons_self)
        | _ => cases hcat
      have hfree' : ¬ (m'.category = .collection ∧ ¬ m'.children.Nodup) := by
        rintro ⟨hcat, hrepeats⟩
        cases m' with
        | collection items => exact hrepeats (hnodup' items List.mem_cons_self)
        | _ => cases hcat
      rw [Forest.checkMembers, Forest.checkMembers, hlow, hlow', if_neg hfree, if_neg hfree',
        ← hm.category_eq]
      rw [ih (fun items hitems => hnodup items (List.mem_cons_of_mem _ hitems))
        fun items hitems => hnodup' items (List.mem_cons_of_mem _ hitems)]

/-- Nodes on top of twins pass the check of the schema alike. -/
theorem check_eq {n n' : Node NodeId} (h : n.Parallel P.Twins n') (hnodup : n.Unrepeated)
    (hnodup' : n'.Unrepeated) : P.left.check n = P.right.check n' := by
  rw [Forest.check, Forest.check, ← h.kind_eq, ← h.value_eq, ← h.members.length_eq,
    checkMembers_eq h.members hnodup hnodup']

end ForestPair

namespace Grow

variable {α β γ : Type} {P P₀ : ForestPair s}

/-- Side by side, the computations come to results with `Q`, or they fail with the same error. -/
def Abreast (x y : Grow s RunError α) (P : ForestPair s) (Q : ForestPair s → α → α → Prop) : Prop :=
  (∃ e f g, x P.left = .error e f ∧ y P.right = .error e g) ∨
    ∃ a b P', x P.left = .ok a P'.left ∧ y P.right = .ok b P'.right ∧ P.Extends P' ∧
      P'.Ready ∧ Q P' a b

namespace Abreast

variable {x y : Grow s RunError α} {Q Q' : ForestPair s → α → α → Prop}

theorem mono (h : x.Abreast y P Q) (hq : ∀ P' a b, P.Extends P' → Q P' a b → Q' P' a b) :
    x.Abreast y P Q' := by
  rcases h with h | ⟨a, b, P', hx, hy, hext, hP', hab⟩
  · exact .inl h
  · exact .inr ⟨a, b, P', hx, hy, hext, hP', hq P' a b hext hab⟩

theorem pure {a b : α} (hP : P.Ready) (h : Q P a b) :
    (pure a : Grow s RunError α).Abreast (pure b) P Q :=
  .inr ⟨a, b, P, rfl, rfl, .refl P, hP, h⟩

theorem throw (e : RunError) : (throw e : Grow s RunError α).Abreast (throw e) P Q :=
  .inl ⟨e, P.left, P.right, rfl, rfl⟩

theorem bind {g h : α → Grow s RunError β} {R : ForestPair s → β → β → Prop} (hxy : x.Abreast y P Q)
    (hgh : ∀ P' a b, P.Extends P' → P'.Ready → Q P' a b → (g a).Abreast (h b) P' R) :
    (x >>= g).Abreast (y >>= h) P R := by
  rcases hxy with ⟨e, f, f', hx, hy⟩ | ⟨a, b, P', hx, hy, hext, hP', hab⟩
  · refine .inl ⟨e, f, f', ?_, ?_⟩
    · simp [Bind.bind, EStateM.bind, hx]
    · simp [Bind.bind, EStateM.bind, hy]
  · have hgrun : (x >>= g) P.left = g a P'.left := by simp [Bind.bind, EStateM.bind, hx]
    have hhrun : (y >>= h) P.right = h b P'.right := by simp [Bind.bind, EStateM.bind, hy]
    rw [Abreast, hgrun, hhrun]
    rcases hgh P' a b hext hP' hab with herror | ⟨c, d, P'', hg, hh, hext', hP'', hcd⟩
    · exact .inl herror
    · exact .inr ⟨c, d, P'', hg, hh, hext.trans hext', hP'', hcd⟩

theorem get {g h : Forest s → Grow s RunError β} {R : ForestPair s → β → β → Prop}
    (hgh : (g P.left).Abreast (h P.right) P R) : (get >>= g).Abreast (get >>= h) P R := hgh

/-- A mark that is set for the time of two computations can be forgotten after them. -/
theorem unmark (h : x.Abreast y P.mark Q)
    (hq : ∀ f g a b, Q ⟨f, g, P.mark.marks⟩ a b → Q' ⟨f, g, P.marks⟩ a b) : x.Abreast y P Q' := by
  rcases h with h | ⟨a, b, ⟨f, g, marks⟩, hx, hy, ⟨hleft, hright, hmarks⟩, hP', hab⟩
  · exact .inl h
  · obtain rfl : marks = P.mark.marks := hmarks
    refine .inr ⟨a, b, ⟨f, g, P.marks⟩, hx, hy, ⟨hleft, hright, rfl⟩, ?_, hq f g a b hab⟩
    exact ⟨hP'.left, hP'.right, fun m hm => hP'.marks_le m (List.mem_cons_of_mem _ hm)⟩

end Abreast

/-- On all forests that have grown from those of `P₀`, the computations come to results with `S` and
`nodes` of them are new, or they fail with the same error. -/
def GrowTwins (x y : Grow s RunError α) (P₀ : ForestPair s) (nodes : α → List NodeId)
    (S : ForestPair s → α → α → Prop) : Prop :=
  ∀ P, P₀.Extends P → P.Ready →
    x.Abreast y P fun P' a b => S P' a b ∧ P.Fresh P' (nodes a) (nodes b)

/-- What holds of two results holds in all that the forests grow to. -/
def LastingTwins (S : ForestPair s → α → α → Prop) : Prop :=
  ∀ (P P' : ForestPair s) (a b : α), P.Extends P' → S P a b → S P' a b

theorem lasting_twins : LastingTwins (s := s) fun P => P.Twins := fun _ _ _ _ h => h.twins

theorem lasting_parallel : LastingTwins (s := s) fun P => Member.Parallel P.Twins :=
  fun _ _ _ _ h hm => hm.mono fun _ _ _ _ => h.twins

namespace GrowTwins

variable {x y : Grow s RunError α} {x' y' : Grow s RunError β} {nodes : α → List NodeId}
  {nodes' : β → List NodeId} {S : ForestPair s → α → α → Prop} {T : ForestPair s → β → β → Prop}

theorem mono {S' : ForestPair s → α → α → Prop} (h : x.GrowTwins y P₀ nodes S)
    (hS : ∀ P a b, P₀.Extends P → S P a b → S' P a b) : x.GrowTwins y P₀ nodes S' := by
  intro P hext hP
  refine (h P hext hP).mono ?_
  rintro P' a b hext' ⟨hab, hfresh⟩
  exact ⟨hS P' a b (hext.trans hext') hab, hfresh⟩

theorem pure {a b : α} (h : ∀ P, P₀.Extends P → S P a b) (ha : nodes a = []) (hb : nodes b = []) :
    (pure a : Grow s RunError α).GrowTwins (pure b) P₀ nodes S := by
  intro P hext hP
  refine .pure hP ⟨h P hext, ?_⟩
  rw [ha, hb]
  exact ⟨.nil, .nil⟩

theorem fault (e : Fault) : (fault e : Grow s RunError α).GrowTwins (fault e) P₀ nodes S :=
  fun _ _ _ => .throw _

theorem map {g : α → β} (hxy : x.GrowTwins y P₀ nodes S)
    (hg : ∀ P a b, P₀.Extends P → S P a b → (nodes a).Nodup → (nodes b).Nodup →
      T P (g a) (g b) ∧ nodes' (g a) = nodes a ∧ nodes' (g b) = nodes b) :
    (do return g (← x) : Grow s RunError β).GrowTwins (do return g (← y)) P₀ nodes' T := by
  intro P hext hP
  refine (hxy P hext hP).bind ?_
  rintro P' a b hext' hP' ⟨hab, hfresh⟩
  obtain ⟨hT, ha, hb⟩ := hg P' a b (hext.trans hext') hab hfresh.left.nodup hfresh.right.nodup
  refine .pure hP' ⟨hT, ?_⟩
  rw [ha, hb]
  exact hfresh

/-- Two results that are put side by side have no node in common. -/
theorem map₂ {nodes'' : γ → List NodeId} {U : ForestPair s → γ → γ → Prop} {g : α → β → γ}
    (hS : LastingTwins S) (hxy : x.GrowTwins y P₀ nodes S) (hxy' : x'.GrowTwins y' P₀ nodes' T)
    (hg : ∀ P a b c d, S P a b → T P c d →
      U P (g a c) (g b d) ∧ nodes'' (g a c) = nodes a ++ nodes' c ∧
        nodes'' (g b d) = nodes b ++ nodes' d) :
    (do
      let a ← x
      let c ← x'
      return g a c : Grow s RunError γ).GrowTwins
    (do
      let b ← y
      let d ← y'
      return g b d) P₀ nodes'' U := by
  intro P hext hP
  refine (hxy P hext hP).bind ?_
  rintro P₁ a b hext₁ hP₁ ⟨hab, hfresh⟩
  refine (hxy' P₁ (hext.trans hext₁) hP₁).bind ?_
  rintro P₂ c d hext₂ hP₂ ⟨hcd, hfresh'⟩
  obtain ⟨hU, hac, hbd⟩ := hg P₂ a b c d (hS P₁ P₂ a b hext₂ hab) hcd
  refine .pure hP₂ ⟨hU, ?_⟩
  rw [hac, hbd]
  exact ⟨.append hext₁.left hext₂.left hfresh.left hfresh'.left,
    .append hext₁.right hext₂.right hfresh.right hfresh'.right⟩

/-- What is made of new nodes only is new. -/
theorem bind {g h : α → Grow s RunError β} (hxy : x.GrowTwins y P₀ nodes S)
    (hgh : ∀ P a b, P₀.Extends P → S P a b → (nodes a).Nodup → (nodes b).Nodup →
      (g a).GrowTwins (h b) P nodes' T) :
    (x >>= g).GrowTwins (y >>= h) P₀ nodes' T := by
  intro P hext hP
  refine (hxy P hext hP).bind ?_
  rintro P₁ a b hext₁ hP₁ ⟨hab, hfresh⟩
  refine (hgh P₁ a b (hext.trans hext₁) hab hfresh.left.nodup hfresh.right.nodup P₁
    (.refl P₁) hP₁).mono ?_
  rintro P₂ c d hext₂ ⟨hcd, hfresh'⟩
  exact ⟨hcd, hfresh'.left.later hext₁.left, hfresh'.right.later hext₁.right⟩

section Loops

variable {δ ε : Type}

theorem mapM {g : δ → Grow s RunError β} {h : ε → Grow s RunError β} {xs : List δ} {ys : List ε}
    (hT : LastingTwins T)
    (hgh : List.Forall₂ (fun a b => (g a).GrowTwins (h b) P₀ nodes' T) xs ys) :
    (xs.mapM g).GrowTwins (ys.mapM h) P₀ (·.flatMap nodes') fun P => List.Forall₂ (T P) := by
  induction hgh with
  | nil => exact .pure (fun _ _ => .nil) rfl rfl
  | cons hab _ ih =>
    rw [List.mapM_cons, List.mapM_cons]
    refine hab.map₂ hT ih ?_
    intro P a b as bs hab hrest
    exact ⟨.cons hab hrest, List.flatMap_cons, List.flatMap_cons⟩

variable {g : δ → Grow s RunError NodeId} {h : ε → Grow s RunError NodeId}

/-- Twins in the place of children make members of the same category. -/
theorem memberMapM {m : Member δ} {m' : Member ε}
    (hgh : m.Parallel (fun a b => (g a).GrowTwins (h b) P₀ ([·]) fun P => P.Twins) m') :
    (m.mapM g).GrowTwins (m'.mapM h) P₀ Member.children fun P k k' =>
      k.Parallel P.Twins k' ∧ k.category = m.category := by
  cases hgh with
  | single h =>
    cases h with
    | none => exact .pure (fun _ _ => ⟨.single .none, rfl⟩) rfl rfl
    | some h =>
      refine h.map ?_
      intro P y y' _ hy _ _
      exact ⟨⟨.single (.some hy), rfl⟩, rfl, rfl⟩
  | sequence h =>
    refine (mapM lasting_twins h).map ?_
    intro P ys ys' _ hys _ _
    exact ⟨⟨.sequence hys, rfl⟩, by simp [Member.children], by simp [Member.children]⟩
  | collection h =>
    refine (mapM lasting_twins h).map ?_
    intro P ys ys' _ hys _ _
    exact ⟨⟨.collection hys, rfl⟩, by simp [Member.children], by simp [Member.children]⟩

theorem membersMapM {ms : List (Member δ)} {ms' : List (Member ε)}
    (hgh : List.Forall₂
      (Member.Parallel fun a b => (g a).GrowTwins (h b) P₀ ([·]) fun P => P.Twins) ms ms') :
    (ms.mapM (Member.mapM g)).GrowTwins (ms'.mapM (Member.mapM h)) P₀ (·.flatMap Member.children)
      fun P ks ks' => List.Forall₂ (Member.Parallel P.Twins) ks ks' ∧
        ks.map Member.category = ms.map Member.category := by
  induction hgh with
  | nil => exact .pure (fun _ _ => ⟨.nil, rfl⟩) rfl rfl
  | cons hm _ ih =>
    rw [List.mapM_cons, List.mapM_cons]
    refine (memberMapM hm).map₂ ?_ ih ?_
    · rintro P P' k k' hext ⟨hk, hcat⟩
      exact ⟨lasting_parallel P P' k k' hext hk, hcat⟩
    · rintro P k k' ks ks' ⟨hk, hcat⟩ ⟨hks, hcats⟩
      refine ⟨⟨.cons hk hks, ?_⟩, List.flatMap_cons, List.flatMap_cons⟩
      rw [List.map_cons, List.map_cons, hcat, hcats]

end Loops

section Nodes

variable {n n' : Node NodeId}

theorem push (hn : n.Parallel P₀.Twins n') (hfits : n.Fits s) (hfits' : n'.Fits s) :
    (push n : Grow s RunError NodeId).GrowTwins (push n') P₀ ([·]) fun P => P.Twins := by
  intro P hext hP
  have hnP : n.Parallel P.Twins n' := hn.mono fun _ _ _ _ => hext.twins
  have htwins := ForestPair.twins_push hP hnP
  have hgrown := ForestPair.extends_push hnP
  refine .inr ⟨P.left.size, P.right.size, P.push n n', rfl, rfl, hgrown, ?_, htwins, ?_⟩
  · exact hP.later hgrown (hP.left.push hfits) (hP.right.push hfits')
  · exact ⟨.singleton (Nat.le_refl _) htwins.left_lt, .singleton (Nat.le_refl _) htwins.right_lt⟩

theorem insert (hn : n.Parallel P₀.Twins n') (hnodup : n.Unrepeated) (hnodup' : n'.Unrepeated) :
    (orFault (insert n) : Grow s RunError NodeId).GrowTwins (orFault (insert n')) P₀ ([·])
      fun P => P.Twins := by
  intro P hext hP
  have hnP : n.Parallel P.Twins n' := hn.mono fun _ _ _ _ => hext.twins
  have hcheck := ForestPair.check_eq hnP hnodup hnodup'
  cases hleft : P.left.check n with
  | error e =>
    refine .inl ⟨.fault (.schema e), P.left, P.right, ?_, ?_⟩
    · simp [orFault, EStateM.adaptExcept, Grow.insert, hleft]
    · simp [orFault, EStateM.adaptExcept, Grow.insert, ← hcheck, hleft]
  | ok =>
    have hright : P.right.check n' = .ok () := hcheck.symm.trans hleft
    have hrun : (orFault (Grow.insert n) : Grow s RunError NodeId) P.left = Grow.push n P.left := by
      simp only [orFault, EStateM.adaptExcept, Grow.insert, hleft]
      rfl
    have hrun' : (orFault (Grow.insert n') : Grow s RunError NodeId) P.right =
        Grow.push n' P.right := by
      simp only [orFault, EStateM.adaptExcept, Grow.insert, hright]
      rfl
    rw [Abreast, hrun, hrun']
    exact push hn (Forest.check_eq_ok_iff.mp hleft).1 (Forest.check_eq_ok_iff.mp hright).1 P hext hP

/-- Copies of twins are twins. -/
theorem duplicate {a b : NodeId} (h : P₀.Twins a b) :
    (duplicate a : Grow s RunError NodeId).GrowTwins (duplicate b) P₀ ([·]) fun P => P.Twins := by
  induction a using Nat.strongRecOn generalizing b P₀ with
  | ind a ih =>
    intro P hext hP
    have hab := hext.twins h
    have hnode := hab.node
    rw [Grow.duplicate, Grow.duplicate]
    refine .get ?_
    dsimp only
    have hcopies : List.Forall₂ (Member.Parallel fun (c : Fin a) (d : Fin b) =>
        (Grow.duplicate c.val : Grow s RunError NodeId).GrowTwins (Grow.duplicate d.val) P ([·])
          fun P => P.Twins) (P.left.node a).members (P.right.node b).members :=
      hnode.members.imp fun m m' hm => hm.mono fun c _ d _ hcd => ih c.val c.isLt hcd
    refine (membersMapM hcopies).bind ?_ P (.refl P) hP
    rintro P' ks ks' hext' ⟨hks, hcats⟩ hnodup hnodup'
    have hleft : ks.map Member.category = (P.left.get a).members.map Member.category := by
      rw [hcats, P.left.get_eq_map_node a]
      simp [Node.map]
    have hright : ks'.map Member.category = (P.right.get b).members.map Member.category := by
      rw [← Member.map_category_eq_of_forall₂ hks, hleft,
        Member.map_category_eq_of_forall₂ hab.get.members]
    refine push ⟨hnode.kind_eq, hnode.value_eq, hks⟩ ?_ ?_
    · exact (hP.left.get hab.left_lt).of_category rfl rfl hleft (Node.unrepeated_of_nodup hnodup)
    · exact (hP.right.get hab.right_lt).of_category rfl rfl hright
        (Node.unrepeated_of_nodup hnodup')

theorem duplicateKey {key key' : Key} (h : key.Twins P₀ key') :
    (duplicateKey key : Grow s RunError Key).GrowTwins (duplicateKey key') P₀ Key.nodes
      fun P => Key.Twins P := by
  cases h with
  | node h =>
    refine (duplicate h).map ?_
    intro P y y' _ hy _ _
    exact ⟨.node hy, rfl, rfl⟩
  | run h =>
    refine (mapM lasting_twins (h.imp fun x y => duplicate)).map ?_
    intro P ys ys' _ hys _ _
    exact ⟨.run hys, by simp, by simp⟩

end Nodes

end GrowTwins

end Grow

/-! ## Ways down -/

theorem forall₂_set_set {α β : Type} {R : α → β → Prop} {xs : List α} {ys : List β}
    (h : List.Forall₂ R xs ys) {x : α} {y : β} (hxy : R x y) (i : Nat) :
    List.Forall₂ R (xs.set i x) (ys.set i y) := by
  induction h generalizing i with
  | nil => exact .nil
  | cons h hs ih =>
    cases i with
    | zero => exact .cons hxy hs
    | succ i => exact .cons h (ih i)

section Ways

variable {T : NodeId → NodeId → Prop} {m m' k : Member NodeId} {c d : NodeId} {P P₀ : ForestPair s}

/-- A child that is not in the member yet takes the place of another one. -/
theorem replaceChild_collection {items : List NodeId} {i : Nat}
    (hc : c ∉ (Member.collection items).children) :
    Forest.replaceChild (.collection items) i c =
      if i < items.length then some (.collection (items.set i c)) else none := by
  have herase : c ∉ items.eraseIdx i := fun h => hc (List.mem_of_mem_eraseIdx h)
  rw [Forest.replaceChild, if_neg herase]

theorem rel_replaceChild (hm : m.Parallel T m') (hcd : T c d) (hc : c ∉ m.children)
    (hd : d ∉ m'.children) (i : Nat) :
    Option.Rel (Member.Parallel T) (Forest.replaceChild m i c) (Forest.replaceChild m' i d) := by
  cases hm with
  | single _ => exact .some (.single (.some hcd))
  | @sequence xs ys h =>
    rw [Forest.replaceChild, Forest.replaceChild, ← h.length_eq]
    split
    next => exact .some (.sequence (forall₂_set_set h hcd i))
    next => exact .none
  | @collection xs ys h =>
    rw [replaceChild_collection hc, replaceChild_collection hd, ← h.length_eq]
    split
    next => exact .some (.collection (forall₂_set_set h hcd i))
    next => exact .none

theorem nodup_of_replaceChild {i : Nat} (h : Forest.replaceChild m i c = some k)
    (hc : c ∉ m.children) (hnodup : ∀ items, m = .collection items → items.Nodup) :
    ∀ items, k = .collection items → items.Nodup := by
  rintro items rfl
  cases m with
  | single child => cases h
  | sequence xs =>
    rw [Forest.replaceChild] at h
    split at h <;> cases h
  | collection xs =>
    rw [replaceChild_collection hc] at h
    split at h
    next =>
      obtain rfl : xs.set i c = items := by simpa using h
      exact (hnodup xs rfl).set hc
    next => cases h

theorem unrepeated_of_withChild {f : Forest s} {a : NodeId} {member position : Nat}
    {n : Node NodeId} (hnodup : (f.get a).Unrepeated) (hac : a ≤ c)
    (h : f.withChild a member position c = .ok n) : n.Unrepeated := by
  rw [Forest.withChild] at h
  split at h
  next k hk =>
    obtain ⟨m, hm, hreplace⟩ := Option.bind_eq_some_iff.mp hk
    have hmem : m ∈ (f.get a).members := List.mem_of_getElem? hm
    have hnew : c ∉ m.children := fun hc =>
      Nat.not_lt.mpr hac (f.child_lt_of_mem (List.mem_flatMap_of_mem hmem hc))
    obtain rfl := Except.ok.inj h
    intro items hitems
    rcases List.mem_or_eq_of_mem_set hitems with hitems | hitems
    · exact hnodup items hitems
    · exact nodup_of_replaceChild hreplace hnew (fun items hm => hnodup items (hm ▸ hmem))
        items hitems.symm
  next => cases h

/-- Twins with new twins for children: both changes are refused alike, or come to nodes on top of
twins. -/
theorem withChild_twins {a b : NodeId} (hab : P.Twins a b) (hcd : P.Twins c d) (hac : a ≤ c)
    (hbd : b ≤ d) (member position : Nat) :
    (∃ e, P.left.withChild a member position c = .error e ∧
        P.right.withChild b member position d = .error e) ∨
      ∃ n n', P.left.withChild a member position c = .ok n ∧
        P.right.withChild b member position d = .ok n' ∧ n.Parallel P.Twins n' := by
  have hget := hab.get
  have hrel := rel_getElem? hget.members member
  rw [Forest.withChild, Forest.withChild, ← hget.kind_eq, ← hget.members.length_eq]
  generalize hl : (P.left.get a).members[member]? = found at hrel ⊢
  generalize hr : (P.right.get b).members[member]? = found' at hrel ⊢
  cases hrel with
  | none => exact .inl ⟨_, rfl, rfl⟩
  | @some m m' hm =>
    have hnew : c ∉ m.children := fun hc =>
      Nat.not_lt.mpr hac (P.left.child_lt_of_mem
        (List.mem_flatMap_of_mem (List.mem_of_getElem? hl) hc))
    have hnew' : d ∉ m'.children := fun hd =>
      Nat.not_lt.mpr hbd (P.right.child_lt_of_mem
        (List.mem_flatMap_of_mem (List.mem_of_getElem? hr) hd))
    have hreplace := rel_replaceChild hm hcd hnew hnew' position
    rw [Option.bind_some, Option.bind_some]
    generalize Forest.replaceChild m position c = k at hreplace ⊢
    generalize Forest.replaceChild m' position d = k' at hreplace ⊢
    cases hreplace with
    | none => exact .inl ⟨_, rfl, rfl⟩
    | some hk =>
      exact .inr ⟨_, _, rfl, rfl, rfl, hget.value_eq, forall₂_set_set hget.members hk member⟩

theorem growTwins_withChild {a b : NodeId} (hab : P₀.Twins a b) (hcd : P₀.Twins c d) (hac : a ≤ c)
    (hbd : b ≤ d) (member position : Nat) :
    (Grow.orFault (Grow.withChild a member position c)).GrowTwins
      (Grow.orFault (Grow.withChild b member position d)) P₀ ([·]) fun P => P.Twins := by
  intro P hext hP
  have habP := hext.twins hab
  rw [Grow.Abreast]
  rcases withChild_twins habP (hext.twins hcd) hac hbd member position with
    ⟨e, hl, hr⟩ | ⟨n, n', hl, hr, hn⟩
  · refine .inl ⟨.fault (.schema e), P.left, P.right, ?_, ?_⟩
    · simp [Grow.orFault, EStateM.adaptExcept, Grow.withChild, hl]
    · simp [Grow.orFault, EStateM.adaptExcept, Grow.withChild, hr]
  · have hrun : (Grow.orFault (Grow.withChild a member position c) : Grow s RunError NodeId)
        P.left = Grow.orFault (Grow.insert n) P.left := by
      simp [Grow.orFault, EStateM.adaptExcept, Grow.withChild, hl]
    have hrun' : (Grow.orFault (Grow.withChild b member position d) : Grow s RunError NodeId)
        P.right = Grow.orFault (Grow.insert n') P.right := by
      simp [Grow.orFault, EStateM.adaptExcept, Grow.withChild, hr]
    rw [hrun, hrun']
    exact Grow.GrowTwins.insert hn
      (unrepeated_of_withChild (hP.left.get habP.left_lt).nodup hac hl)
      (unrepeated_of_withChild (hP.right.get habP.right_lt).nodup hbd hr) P (.refl P) hP

/-- Twins at or after two bounds. -/
structure ForestPair.TwinsFrom (P : ForestPair s) (n n' : Nat) (x y : NodeId) : Prop where
  twins : P.Twins x y
  left_le : n ≤ x
  right_le : n' ≤ y

/-- New twins come after all that was there. -/
theorem ForestPair.Fresh.twinsFrom {P P' : ForestPair s} {x y : NodeId} (h : P.Fresh P' [x] [y])
    (hxy : P'.Twins x y) : P'.TwinsFrom P.left.size P.right.size x y :=
  ⟨hxy, h.left.size_le x (List.mem_singleton_self x), h.right.size_le y (List.mem_singleton_self y)⟩

theorem ForestPair.TwinsFrom.fresh {P P' : ForestPair s} {x y : NodeId}
    (h : P'.TwinsFrom P.left.size P.right.size x y) : P.Fresh P' [x] [y] :=
  ⟨.singleton h.left_le h.twins.left_lt, .singleton h.right_le h.twins.right_lt⟩

theorem ForestPair.TwinsFrom.earlier {P : ForestPair s} {m m' n n' : Nat} {x y : NodeId}
    (h : P.TwinsFrom m m' x y) (hn : n ≤ m) (hn' : n' ≤ m') : P.TwinsFrom n n' x y :=
  ⟨h.twins, Nat.le_trans hn h.left_le, Nat.le_trans hn' h.right_le⟩

/-- New twins at the ends of ways in twins make new twins of those. -/
theorem abreast_rebuildAlong {path path' : List Site}
    (hpath : List.Forall₂ (Site.Twins P₀) path path')
    (hext : P₀.Extends P) (hP : P.Ready) (hcd : P.TwinsFrom P₀.left.size P₀.right.size c d) :
    (rebuildAlong path c : Grow s RunError NodeId).Abreast (rebuildAlong path' d) P
      fun P' => P'.TwinsFrom P₀.left.size P₀.right.size := by
  induction hpath with
  | nil => exact .pure hP hcd
  | @cons parent parent' path path' hparent hpath ih =>
    cases hpath with
    | nil => exact .pure hP hcd
    | @cons site site' path path' hsite hpath =>
      rw [rebuildAlong, rebuildAlong, ← hsite.member_eq, ← hsite.position_eq]
      refine ih.bind ?_
      intro P' y y' hext' hP' hy
      have htop := hext'.twins (hext.twins hparent.node)
      have hleft := Nat.le_of_lt (Nat.lt_of_lt_of_le hparent.node.left_lt hy.left_le)
      have hright := Nat.le_of_lt (Nat.lt_of_lt_of_le hparent.node.right_lt hy.right_le)
      refine (growTwins_withChild htop hy.twins hleft hright _ _ P' (.refl P') hP').mono ?_
      rintro P'' z z' _ ⟨hz, hfresh⟩
      have hgrown := hext.trans hext'
      exact (hfresh.twinsFrom hz).earlier hgrown.left.size_le hgrown.right.size_le

end Ways

/-! ## Members -/

theorem Key.Twins.mono {P P' : ForestPair s} {key key' : Key} (h : key.Twins P key')
    (hP : ∀ a b, P.Twins a b → P'.Twins a b) : key.Twins P' key' := by
  cases h with
  | node h => exact .node (hP _ _ h)
  | run h => exact .run (h.imp hP)

theorem Key.Twins.nodes {P : ForestPair s} {key key' : Key} (h : key.Twins P key') :
    List.Forall₂ P.Twins key.nodes key'.nodes := by
  cases h with
  | node h => exact .cons h .nil
  | run h => exact h

theorem Grow.lasting_key : LastingTwins (s := s) fun P => Key.Twins P :=
  fun _ _ _ _ hext h => h.mono fun _ _ => hext.twins

section Build

variable {α : Type} {build build' : α → Option Key → Grow s RunError Key} {index : α → PatternId}
  {P₀ : ForestPair s}

/-- From here on the two make twins of the same pattern, if they build it on twins. -/
def BuildTwins (build build' : α → Option Key → Grow s RunError Key) (P₀ : ForestPair s) : Prop :=
  ∀ P, P₀.Extends P → ∀ p base base', Option.Rel (Key.Twins P) base base' →
    (build p base).GrowTwins (build' p base') P Key.nodes fun P => Key.Twins P

theorem BuildTwins.later {P : ForestPair s} (h : BuildTwins build build' P₀) (hext : P₀.Extends P) :
    BuildTwins build build' P :=
  fun P' hP' => h P' (hext.trans hP')

theorem BuildTwins.start (h : BuildTwins build build' P₀) (p : α) {base base' : Option Key}
    (hbase : Option.Rel (Key.Twins P₀) base base') :
    (build p base).GrowTwins (build' p base') P₀ Key.nodes fun P => Key.Twins P :=
  h P₀ (.refl P₀) p base base' hbase

/-- Keys that have to be single nodes. -/
theorem growTwins_single {x y : Grow s RunError Key}
    (h : x.GrowTwins y P₀ Key.nodes fun P => Key.Twins P) (p : PatternId) :
    (x >>= Grow.single p).GrowTwins (y >>= Grow.single p) P₀ ([·]) fun P => P.Twins := by
  intro P hext hP
  refine (h P hext hP).bind ?_
  rintro P' key key' hext' hP' ⟨hkey, hfresh⟩
  cases hkey with
  | node h => exact .pure hP' ⟨h, hfresh⟩
  | run h => exact .throw _

theorem growTwins_buildFinal (h : BuildTwins build build' P₀) (p : α) {base base' : Option Key}
    (hbase : Option.Rel (Key.Twins P₀) base base') :
    (buildFinal build index p base).GrowTwins (buildFinal build' index p base') P₀ ([·])
      fun P => P.Twins :=
  growTwins_single (h.start p hbase) _

theorem growTwins_buildItems (h : BuildTwins build build' P₀) (items : List α) :
    (buildItems build items).GrowTwins (buildItems build' items) P₀ id
      fun P => List.Forall₂ P.Twins := by
  have hkeys : List.Forall₂ (fun p q => (build p none).GrowTwins (build' q none) P₀ Key.nodes
      fun P => Key.Twins P) items items := List.forall₂_same.mpr fun p _ => h.start p .none
  refine (Grow.GrowTwins.mapM Grow.lasting_key hkeys).map ?_
  intro P ks ks' _ hks _ _
  exact ⟨List.rel_flatMap hks fun k k' hk => hk.nodes, rfl, rfl⟩

theorem growTwins_buildMember (index : α → PatternId) (h : BuildTwins build build' P₀)
    (m : Member α) :
    (buildMember build index m).GrowTwins (buildMember build' index m) P₀ Member.children
      fun P => Member.Parallel P.Twins := by
  cases m with
  | single p =>
    cases p with
    | none => exact .pure (fun _ _ => .single .none) rfl rfl
    | some p =>
      refine (growTwins_buildFinal h p .none).map ?_
      intro P y y' _ hy _ _
      exact ⟨.single (.some hy), rfl, rfl⟩
  | sequence items =>
    refine (growTwins_buildItems h items).map ?_
    intro P ids ids' _ hids _ _
    exact ⟨.sequence hids, rfl, rfl⟩
  | collection items =>
    -- What is built for a collection is new throughout, and so nothing in it is dropped.
    refine (growTwins_buildItems h items).map ?_
    intro P ids ids' _ hids hnodup hnodup'
    have hfirst : keepFirst ids = ids := keepFirst_eq_self hnodup
    have hfirst' : keepFirst ids' = ids' := keepFirst_eq_self hnodup'
    rw [hfirst, hfirst']
    exact ⟨.collection hids, rfl, rfl⟩

theorem growTwins_buildMembers (index : α → PatternId) (h : BuildTwins build build' P₀)
    (ms : List (Member α)) :
    (ms.mapM (buildMember build index)).GrowTwins (ms.mapM (buildMember build' index)) P₀
      (·.flatMap Member.children) fun P => List.Forall₂ (Member.Parallel P.Twins) :=
  .mapM Grow.lasting_parallel (List.forall₂_same.mpr fun m _ => growTwins_buildMember index h m)

theorem growTwins_overlayMember (h : BuildTwins build build' P₀) {m : Member α}
    {kept kept' : Member NodeId} (hkept : kept.Parallel P₀.Twins kept')
    (hcat : m.category = kept.category) :
    (overlayMember build index m kept).GrowTwins (overlayMember build' index m kept') P₀
      Member.children fun P => Member.Parallel P.Twins := by
  have hcopy : (kept.mapM Grow.duplicate).GrowTwins (kept'.mapM Grow.duplicate) P₀ Member.children
      fun P => Member.Parallel P.Twins := by
    refine (Grow.GrowTwins.memberMapM (hkept.mono fun c _ d _ => Grow.GrowTwins.duplicate)).mono ?_
    intro P k k' _ hk
    exact hk.1
  cases hkept with
  | single hchild =>
    cases m with
    | single p =>
      cases p with
      | none => exact hcopy
      | some p =>
        cases hchild with
        | none => exact growTwins_buildMember index h (.single (some p))
        | some hchild =>
          refine (growTwins_buildFinal h p (.some (.node hchild))).map ?_
          intro P y y' _ hy _ _
          exact ⟨.single (.some hy), rfl, rfl⟩
    | _ => cases hcat
  | sequence _ =>
    cases m with
    | sequence items =>
      cases items with
      | nil => exact hcopy
      | cons p items => exact growTwins_buildMember index h (.sequence (p :: items))
    | _ => cases hcat
  | collection _ =>
    cases m with
    | collection items =>
      cases items with
      | nil => exact hcopy
      | cons p items => exact growTwins_buildMember index h (.collection (p :: items))
    | _ => cases hcat

/-- The members of a pattern are laid over those of twins alike.  The faults of a pattern with more
members than its subject name the subject and may differ, but there are none. -/
theorem growTwins_overlayMembers (h : BuildTwins build build' P₀) {misfit misfit' : Fault}
    {ms : List (Member α)} {kept kept' : List (Member NodeId)}
    (hkept : List.Forall₂ (Member.Parallel P₀.Twins) kept kept')
    (hfit : ms.map Member.category <+: kept.map Member.category) :
    (overlayMembers build index misfit ms kept).GrowTwins
      (overlayMembers build' index misfit' ms kept') P₀
      (·.flatMap Member.children) fun P => List.Forall₂ (Member.Parallel P.Twins) := by
  induction ms generalizing kept kept' with
  | nil =>
    have hcopies : List.Forall₂ (Member.Parallel fun c d =>
        (Grow.duplicate c : Grow s RunError NodeId).GrowTwins (Grow.duplicate d) P₀ ([·])
          fun P => P.Twins) kept kept' :=
      hkept.imp fun k k' hk => hk.mono fun c _ d _ => Grow.GrowTwins.duplicate
    refine (Grow.GrowTwins.membersMapM hcopies).mono ?_
    intro P ks ks' _ hks
    exact hks.1
  | cons m ms ih =>
    cases hkept with
    | nil => simp at hfit
    | cons hk hkept =>
      rw [List.map_cons, List.map_cons, List.cons_prefix_cons] at hfit
      refine (growTwins_overlayMember h hk hfit.1).map₂ Grow.lasting_parallel (ih hkept hfit.2) ?_
      intro P k k' ks ks' hk hks
      exact ⟨.cons hk hks, List.flatMap_cons, List.flatMap_cons⟩

end Build

end Espalier
