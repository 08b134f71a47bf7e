import Espalier.Proofs.Subtrees
import Espalier.Rule.Rebuild

/-!
# Outcomes of computations

What a computation on a forest can come to: an error of a given class or a result of a given kind,
in a forest that has grown from the one before.  Something may be kept of the forest meanwhile,
which need not be all of its well-formedness, and it is kept by a computation that fails half-way,
too.  A class without errors says that the computation succeeds, and the class of all errors that
nothing is known of success.

All that is said of a computation that grows a forest is said in these terms, with other classes and
other kinds of results.
-/

namespace Espalier

variable {s : Schema}

/-! ## Members that may stand in a node -/

/-- The member is of the category and holds nodes of the forest, none of them twice if it is a
collection. -/
structure Member.Sits (f : Forest s) (category : Category) (m : Member NodeId) : Prop where
  category_eq : m.category = category
  lt_size : ∀ c ∈ m.children, c < f.size
  nodup : ∀ items, m = .collection items → items.Nodup

theorem Member.Sits.later {f f' : Forest s} {category : Category} {m : Member NodeId}
    (h : m.Sits f category) (hext : f.Extends f') : m.Sits f' category :=
  ⟨h.category_eq, fun c hc => Nat.lt_of_lt_of_le (h.lt_size c hc) hext.size_le, h.nodup⟩

/-- A node of such members, one for each that its kind has, passes the check if its value does. -/
theorem Forest.check_of_sits {f : Forest s} {kind : KindId} {value : Option Value}
    {members : List (Member NodeId)} (hkind : kind < s.size)
    (hvalue : value.isSome → s.isValued kind)
    (hmembers : List.Forall₂ (fun d m => m.Sits f d.category) (s.layout kind) members) :
    f.check ⟨kind, value, members⟩ = .ok () := by
  have hsits {m} (hm : m ∈ members) : ∃ d ∈ s.layout kind, m.Sits f d.category :=
    exists_mem_of_forall₂ hmembers.flip hm
  refine check_eq_ok_iff.mpr ⟨⟨hkind, hvalue, ?_, ?_⟩, ?_⟩
  · show members.map Member.category = (s.layout kind).map MemberDecl.category
    rw [← List.forall₂_eq_eq_eq, List.forall₂_map_left_iff, List.forall₂_map_right_iff]
    exact hmembers.flip.imp fun m d hm => hm.category_eq
  · intro items hitems
    obtain ⟨d, -, hm⟩ := hsits hitems
    exact hm.nodup items rfl
  · intro c hc
    obtain ⟨m, hm, hc⟩ := List.mem_flatMap.mp hc
    obtain ⟨d, -, hm⟩ := hsits hm
    exact hm.lt_size c hc

/-! ## What is kept of a forest, and what is said of new nodes -/

namespace Forest

/-- What every node leaves as it is that comes in after the check, or as a copy of one that is
there. -/
structure Upheld (I : Forest s → Prop) : Prop where
  push {f : Forest s} {n : Node NodeId} (hf : I f) (hn : n.Fits s) : I (f.push n)
  copy {f : Forest s} {a : NodeId} {n : Node NodeId} (hf : I f) (ha : a < f.size)
    (hkind : n.kind = (f.get a).kind) (hvalue : n.value = (f.get a).value)
    (hmembers : n.members.map Member.category = (f.get a).members.map Member.category)
    (hnodup : n.Unrepeated) : I (f.push n)

theorem upheld_wellFormed : Upheld (s := s) WellFormed where
  push hf hn := hf.push hn
  copy hf ha hkind hvalue hmembers hnodup :=
    hf.push ((hf.get ha).of_category hkind hvalue hmembers hnodup)

theorem upheld_wellShaped : Upheld (s := s) WellShaped where
  push hf hn := hf.push hn.members
  copy {f a n} hf ha hkind _ hmembers _ := by
    refine hf.push ?_
    have hget : f.nodes[a]? = some (f.get a) := by
      rw [get, Array.getElem?_eq_getElem ha]
      rfl
    rw [hkind]
    exact hmembers.trans (hf a _ hget)

/-- In `f'`, which `f` has grown to, `y` is a copy of `x` if that was there. -/
def Copy (f f' : Forest s) (x y : NodeId) : Prop := x < f.size → f'.Twins x y

theorem Copy.earlier {f₀ f f' : Forest s} {x y : NodeId} (h : f.Copy f' x y) (hext : f₀.Extends f) :
    f₀.Copy f' x y :=
  fun hx => h (Nat.lt_of_lt_of_le hx hext.size_le)

/-- What may be said of the nodes that came in between two stages of a forest: it is said of no
nodes if there was nothing in between, and of those that came in one after the other. -/
structure Gathers (G : Forest s → Forest s → List NodeId → Prop) : Prop where
  nil (f : Forest s) : G f f []
  append {f f' f'' : Forest s} {xs ys : List NodeId} (h : f.Extends f') (h' : f'.Extends f'')
    (hxs : G f f' xs) (hys : G f' f'' ys) : G f f'' (xs ++ ys)

theorem Fresh.gathers : Gathers (s := s) Fresh := ⟨fun _ => nil, append⟩

theorem Planted.gathers : Gathers (s := s) Planted := ⟨nil, append⟩

end Forest

/-! ## Outcomes -/

namespace Grow

variable {ε α β : Type} {f f₀ : Forest s}

/-- The forest that a computation leaves, whether it succeeds or fails. -/
def after (x : Grow s ε α) (f : Forest s) : Forest s :=
  match x f with
  | .ok _ f' | .error _ f' => f'

theorem get_bind_apply (g : Forest s → Grow s ε β) (f : Forest s) : (get >>= g) f = g f f := rfl

/-- Beyond the end of the forest a bare node is read, and its copy is another one. -/
theorem duplicate_of_size_le {id : NodeId} (hid : f.size ≤ id) :
    (duplicate id : Grow s ε NodeId) f = push default f := by
  have hget : f.get id = default := by
    rw [Forest.get, Array.getElem?_eq_none hid]
    rfl
  have hnode : (f.node id).map Fin.val = default := (f.get_eq_map_node id).symm.trans hget
  have hmembers : (f.node id).members = [] := List.map_eq_nil_iff.mp (congrArg Node.members hnode)
  have hkind : (f.node id).kind = Schema.nodeKind := congrArg Node.kind hnode
  have hvalue : (f.node id).value = none := congrArg Node.value hnode
  have hrun : (duplicate id : Grow s ε NodeId) f =
      ((f.node id).members.mapM (Member.mapM fun c => duplicate c.val) >>= fun members =>
        push ⟨(f.node id).kind, (f.node id).value, members⟩ : Grow s ε NodeId) f := by
    rw [duplicate]
    rfl
  rw [hrun, hmembers, hkind, hvalue, List.mapM_nil, pure_bind]
  rfl

theorem lasting_copy (x : NodeId) : Lasting fun f' y => f₀.Copy f' x y :=
  fun _ _ _ hext h hx => hext.twins (h hx)

/-- On `f`, the computation ends with an error of `E` or comes to a result with `Q`.  Either way it
only appends to the forest and keeps `I` of it. -/
def Yields (x : Grow s ε α) (f : Forest s) (E : ε → Prop) (Q : Forest s → α → Prop)
    (I : Forest s → Prop := Forest.WellFormed) : Prop :=
  match x f with
  | .ok a f' => f.Extends f' ∧ I f' ∧ Q f' a
  | .error e f' => f.Extends f' ∧ I f' ∧ E e

namespace Yields

variable {x : Grow s ε α} {E E' : ε → Prop} {Q Q' : Forest s → α → Prop} {I : Forest s → Prop}

theorem of_ok (h : x.Yields f E Q I) {a : α} {f' : Forest s} (hrun : x f = .ok a f') :
    f.Extends f' ∧ I f' ∧ Q f' a := by
  rw [Yields, hrun] at h
  exact h

theorem of_error (h : x.Yields f E Q I) {e : ε} {f' : Forest s} (hrun : x f = .error e f') :
    f.Extends f' ∧ I f' ∧ E e := by
  rw [Yields, hrun] at h
  exact h

/-- What is known of the errors and of the results, each on its own. -/
theorem intro (hok : ∀ a f', x f = .ok a f' → f.Extends f' ∧ I f' ∧ Q f' a)
    (herror : ∀ e f', x f = .error e f' → f.Extends f' ∧ I f' ∧ E e) : x.Yields f E Q I := by
  rw [Yields]
  split
  next a f' hrun => exact hok a f' hrun
  next e f' hrun => exact herror e f' hrun

/-- What a computation yields depends on its run alone. -/
theorem of_eq {y : Grow s ε α} (h : x.Yields f E Q I) (hrun : y f = x f) : y.Yields f E Q I := by
  rw [Yields, hrun]
  exact h

/-- A result that a computation comes to is the result of its run, and so is an error. -/
theorem traced (h : x.Yields f E Q I) :
    x.Yields f (fun e => E e ∧ ∃ f', x f = .error e f')
      (fun f' a => Q f' a ∧ x f = .ok a f') I := by
  refine intro (fun a f' hrun => ?_) fun e f' hrun => ?_
  · obtain ⟨hext, hf', ha⟩ := h.of_ok hrun
    exact ⟨hext, hf', ha, hrun⟩
  · obtain ⟨hext, hf', he⟩ := h.of_error hrun
    exact ⟨hext, hf', he, f', hrun⟩

theorem mono (h : x.Yields f E Q I) (hE : ∀ e, E e → E' e)
    (hQ : ∀ f' a, f.Extends f' → I f' → Q f' a → Q' f' a) : x.Yields f E' Q' I := by
  refine intro (fun a f' hrun => ?_) fun e f' hrun => ?_
  · obtain ⟨hext, hf', ha⟩ := h.of_ok hrun
    exact ⟨hext, hf', hQ f' a hext hf' ha⟩
  · obtain ⟨hext, hf', he⟩ := h.of_error hrun
    exact ⟨hext, hf', hE e he⟩

theorem imp (h : x.Yields f E Q I) (hQ : ∀ f' a, f.Extends f' → I f' → Q f' a → Q' f' a) :
    x.Yields f E Q' I :=
  h.mono (fun _ => id) hQ

/-- Without errors to end with, the computation succeeds. -/
theorem exists_ok (h : x.Yields f (fun _ => False) Q I) :
    ∃ a f', x f = .ok a f' ∧ f.Extends f' ∧ I f' ∧ Q f' a := by
  cases hrun : x f with
  | ok a f' => exact ⟨a, f', rfl, h.of_ok hrun⟩
  | error e f' => exact (h.of_error hrun).2.2.elim

/-- What is known of the forest that is left does not depend on success. -/
theorem forest_after (h : x.Yields f E Q I) : f.Extends (x.after f) ∧ I (x.after f) := by
  rw [after]
  cases hrun : x f with
  | ok a f' =>
    obtain ⟨hext, hf', -⟩ := h.of_ok hrun
    exact ⟨hext, hf'⟩
  | error e f' =>
    obtain ⟨hext, hf', -⟩ := h.of_error hrun
    exact ⟨hext, hf'⟩

theorem pure {a : α} (hf : I f) (h : Q f a) : (pure a : Grow s ε α).Yields f E Q I :=
  ⟨.refl f, hf, h⟩

theorem throw {e : ε} (hf : I f) (h : E e) : (throw e : Grow s ε α).Yields f E Q I :=
  ⟨.refl f, hf, h⟩

theorem bind {g : α → Grow s ε β} {R : Forest s → β → Prop} (hx : x.Yields f E Q I)
    (hg : ∀ f' a, f.Extends f' → I f' → Q f' a → (g a).Yields f' E R I) :
    (x >>= g).Yields f E R I := by
  cases hxf : x f with
  | ok a f' =>
    obtain ⟨hext, hf', ha⟩ := hx.of_ok hxf
    have hrun : (x >>= g) f = g a f' := by simp [Bind.bind, EStateM.bind, hxf]
    have h := hg f' a hext hf' ha
    refine intro (fun b f'' hb => ?_) fun e f'' he => ?_
    · obtain ⟨hext', hf'', hb⟩ := h.of_ok (hrun.symm.trans hb)
      exact ⟨hext.trans hext', hf'', hb⟩
    · obtain ⟨hext', hf'', he⟩ := h.of_error (hrun.symm.trans he)
      exact ⟨hext.trans hext', hf'', he⟩
  | error e f' =>
    have hrun : (x >>= g) f = .error e f' := by simp [Bind.bind, EStateM.bind, hxf]
    rw [Yields, hrun]
    exact hx.of_error hxf

theorem map {g : α → β} {R : Forest s → β → Prop} (hx : x.Yields f E Q I)
    (hg : ∀ f' a, f.Extends f' → Q f' a → R f' (g a)) :
    (do return g (← x) : Grow s ε β).Yields f E R I :=
  hx.bind fun f' a hext hf' ha => .pure hf' (hg f' a hext ha)

theorem get {g : Forest s → Grow s ε β} {R : Forest s → β → Prop} (h : (g f).Yields f E R I) :
    (get >>= g).Yields f E R I := h

theorem orFault {x : Grow s SchemaError α} {E : RunError → Prop}
    (h : x.Yields f (fun e => E (.fault (.schema e))) Q I) : (orFault x).Yields f E Q I := by
  cases hx : x f with
  | ok a f' =>
    have hrun : Grow.orFault x f = .ok a f' := by simp [Grow.orFault, EStateM.adaptExcept, hx]
    rw [Yields, hrun]
    exact h.of_ok hx
  | error e f' =>
    have hrun : Grow.orFault x f = .error (.fault (.schema e)) f' := by
      simp [Grow.orFault, EStateM.adaptExcept, hx]
    rw [Yields, hrun]
    exact h.of_error hx

/-! ### Steps one after the other -/

/-- The results of steps, each of them known on every forest that has grown by then, and the nodes
that came in with each. -/
theorem mapM {g : α → Grow s ε β} {R : Forest s → α → β → Prop}
    {G : Forest s → Forest s → List NodeId → Prop} (hG : Forest.Gathers G) (nodes : β → List NodeId)
    {xs : List α} (hR : ∀ a, Lasting fun f b => R f a b)
    (h : ∀ a ∈ xs, ∀ f', f.Extends f' → I f' →
      (g a).Yields f' E (fun f'' b => R f'' a b ∧ G f' f'' (nodes b)) I) (hf : I f) :
    (xs.mapM g).Yields f E
      (fun f' ys => List.Forall₂ (R f') xs ys ∧ G f f' (ys.flatMap nodes)) I := by
  induction xs generalizing f with
  | nil => exact .pure hf ⟨.nil, hG.nil f⟩
  | cons a xs ih =>
    rw [List.mapM_cons]
    rw [List.forall_mem_cons] at h
    refine (h.1 f (.refl f) hf).bind ?_
    rintro f₁ b hext₁ hf₁ ⟨hb, hnodes⟩
    refine (ih (fun a ha f' hext => h.2 a ha f' (hext₁.trans hext)) hf₁).bind ?_
    rintro f₂ ys hext₂ hf₂ ⟨hys, hnodes'⟩
    refine .pure hf₂ ⟨.cons (hR a f₁ f₂ b hext₂ hb) hys, ?_⟩
    exact hG.append hext₁ hext₂ hnodes hnodes'

/-- Steps of whose results nothing is to be known. -/
theorem mapM_of_forall {g : α → Grow s ε β} {xs : List α}
    (h : ∀ a ∈ xs, ∀ f', I f' → (g a).Yields f' E (fun _ _ => True) I) (hf : I f) :
    (xs.mapM g).Yields f E (fun _ _ => True) I := by
  have hG : Forest.Gathers (s := s) fun _ _ _ => True :=
    ⟨fun _ => trivial, fun _ _ _ _ => trivial⟩
  refine (mapM hG (fun _ => []) (R := fun _ _ _ => True) (fun _ _ _ _ _ _ => trivial) ?_ hf).imp ?_
  · exact fun a ha f' _ hf' => (h a ha f' hf').imp fun _ _ _ _ _ => ⟨trivial, trivial⟩
  · exact fun _ _ _ _ _ => trivial

/-- Every child is replaced by a node that is related to it, in its place, and the nodes that came
in meanwhile are those of the member. -/
theorem memberMapM {g : α → Grow s ε NodeId} {R : Forest s → α → NodeId → Prop}
    {G : Forest s → Forest s → List NodeId → Prop} (hG : Forest.Gathers G) {m : Member α}
    (hR : ∀ a, Lasting fun f y => R f a y)
    (h : ∀ c ∈ m.children, ∀ f', f.Extends f' → I f' →
      (g c).Yields f' E (fun f'' y => R f'' c y ∧ G f' f'' [y]) I) (hf : I f) :
    (m.mapM g).Yields f E (fun f' m' => m.Parallel (R f') m' ∧ G f f' m'.children) I := by
  have items {xs : List α} (h : ∀ c ∈ xs, ∀ f', f.Extends f' → I f' →
      (g c).Yields f' E (fun f'' y => R f'' c y ∧ G f' f'' [y]) I) :
      (xs.mapM g).Yields f E (fun f' ys => List.Forall₂ (R f') xs ys ∧ G f f' ys) I := by
    refine (mapM hG ([·]) hR h hf).imp fun f' ys _ _ hys => ?_
    rwa [List.flatMap_singleton'] at hys
  cases m with
  | single c =>
    cases c with
    | none => exact .pure hf ⟨.single .none, hG.nil f⟩
    | some c =>
      refine (h c (by simp [Member.children]) f (.refl f) hf).map ?_
      rintro f' y - ⟨hy, hnew⟩
      exact ⟨.single (.some hy), hnew⟩
  | sequence xs =>
    refine (items h).map ?_
    rintro f' ys - ⟨hys, hnew⟩
    exact ⟨.sequence hys, hnew⟩
  | collection xs =>
    refine (items h).map ?_
    rintro f' ys - ⟨hys, hnew⟩
    exact ⟨.collection hys, hnew⟩

/-! ### Nodes that are put in -/

/-- A node is put in if it passes the check. -/
theorem insert {n : Node NodeId} {E : SchemaError → Prop} (hI : Forest.Upheld I) (hf : I f)
    (h : ∀ e, f.check n = .error e → E e) :
    (insert n : Grow s SchemaError NodeId).Yields f E
      (fun f' y => f' = f.push n ∧ y = f.size ∧ f'.get y = n ∧ f.New f' y) I := by
  rw [Yields, Grow.insert]
  cases hcheck : f.check n with
  | error e => exact ⟨.refl f, hf, h e hcheck⟩
  | ok =>
    obtain ⟨hfits, hlow⟩ := Forest.check_eq_ok_iff.mp hcheck
    refine ⟨Forest.extends_push hlow, hI.push hf hfits, rfl, rfl, ?_, Forest.new_push hlow⟩
    exact Forest.get_push_size hlow

/-- A node with another child is put in if it has a place for that child and passes the check. -/
theorem withChild {id : NodeId} {member position : Nat} {child : NodeId} {E : SchemaError → Prop}
    (hI : Forest.Upheld I) (hf : I f)
    (h : ∀ e, f.withChild id member position child = .error e → E e)
    (hcheck : ∀ n e, f.withChild id member position child = .ok n → f.check n = .error e → E e) :
    (withChild id member position child : Grow s SchemaError NodeId).Yields f E
      (fun f' y => f.withChild id member position child = .ok (f'.get y) ∧ f.New f' y) I := by
  cases hn : f.withChild id member position child with
  | error e =>
    rw [Yields, Grow.withChild, hn]
    exact ⟨.refl f, hf, h e hn⟩
  | ok n =>
    have hrun : (Grow.withChild id member position child : Grow s SchemaError NodeId) f =
        Grow.insert n f := by
      rw [Grow.withChild, hn]
    refine Yields.of_eq ((insert hI hf fun e => hcheck n e hn).imp ?_) hrun
    rintro f' y - - ⟨-, -, rfl, hnew⟩
    exact ⟨rfl, hnew⟩

/-! ### Copies -/

/-- A node on top of planted children is a twin of one that has twins of them in the same places. -/
theorem push_twins {f' : Forest s} {a : NodeId} {n : Node NodeId} (hI : Forest.Upheld I)
    (hext : f.Extends f') (hf' : I f') (ha : a < f'.size) (hn : (f'.get a).Parallel f'.Twins n)
    (hplanted : f.Planted f' n.children) :
    (push n : Grow s ε NodeId).Yields f' E (fun f'' y => f''.Twins a y ∧ f.Planted f'' [y]) I := by
  have hlow (c) (hc : c ∈ n.children) : c < f'.size := hplanted.lt_size hc
  have hgrown := Forest.extends_push hlow
  refine ⟨hgrown, ?_, Forest.twins_iff.mpr ⟨?_, ?_, ?_⟩, hplanted.push hext⟩
  · exact hI.copy hf' ha hn.kind_eq.symm hn.value_eq.symm
      (Member.map_category_eq_of_forall₂ hn.members).symm (Node.unrepeated_of_nodup hplanted.nodup)
  · exact Nat.lt_of_lt_of_le ha hgrown.size_le
  · exact (Forest.new_push hlow).lt_size
  · rw [hgrown.get_eq a ha, Forest.get_push_size hlow]
    exact hn.mono fun c _ d _ => hgrown.twins

/-- A copy is planted, and it is always made.  One of a node that is there is a twin of it. -/
theorem duplicate (hI : Forest.Upheld I) (hf : I f) {a : NodeId}
    (ha : a < f.size ∨ ∀ f, I f → I (f.push default)) :
    (duplicate a : Grow s ε NodeId).Yields f E
      (fun f' y => f.Copy f' a y ∧ f.Planted f' [y]) I := by
  induction a using Nat.strongRecOn generalizing f with
  | ind a ih =>
    by_cases hlt : a < f.size
    · rw [Grow.duplicate]
      refine .get ?_
      dsimp only
      have hmembers : ((f.node a).members.mapM (Member.mapM fun c => Grow.duplicate c.val) :
          Grow s ε (List (Member NodeId))).Yields f E (fun f' ms =>
            List.Forall₂ (Member.Parallel fun c y => f'.Twins c.val y) (f.node a).members ms ∧
              f.Planted f' (ms.flatMap Member.children)) I := by
        refine mapM Forest.Planted.gathers Member.children (fun m f₁ f₂ m' hext hm => ?_)
          (fun m _ f₁ hext₁ hf₁ => ?_) hf
        · exact hm.mono fun c _ y _ => hext.twins
        · refine memberMapM Forest.Planted.gathers (fun c f₂ f₃ y hext hy => hext.twins hy)
            (fun c _ f₂ hext₂ hf₂ => ?_) hf₁
          have hc : c.val < f₂.size :=
            Nat.lt_of_lt_of_le (Nat.lt_trans c.isLt hlt) (hext₁.trans hext₂).size_le
          exact (ih c.val c.isLt hf₂ (.inl hc)).imp fun f' y _ _ hy => ⟨hy.1 hc, hy.2⟩
      refine hmembers.bind ?_
      rintro f' ms hext hf' ⟨hms, hplanted⟩
      have hnode : (f'.get a).Parallel f'.Twins ⟨(f.node a).kind, (f.node a).value, ms⟩ := by
        rw [hext.get_eq a hlt, f.get_eq_map_node a, Node.parallel_map_left]
        exact ⟨rfl, rfl, hms⟩
      refine (push_twins hI hext hf' (Nat.lt_of_lt_of_le hlt hext.size_le) hnode hplanted).imp ?_
      exact fun f'' y _ _ hy => ⟨fun _ => hy.1, hy.2⟩
    · have hlow (c) (hc : c ∈ (default : Node NodeId).children) : c < f.size :=
        (List.not_mem_nil hc).elim
      rw [Yields, duplicate_of_size_le (Nat.le_of_not_lt hlt)]
      refine ⟨Forest.extends_push hlow, ha.resolve_left hlt f hf, fun h => absurd h hlt, ?_⟩
      exact .push (.refl f) (.nil f)

theorem copyMember (hI : Forest.Upheld I) (hbare : ∀ f, I f → I (f.push default))
    (hext : f₀.Extends f) (hf : I f) (m : Member NodeId) :
    (m.mapM Grow.duplicate : Grow s ε (Member NodeId)).Yields f E (fun f' m' =>
      m.Parallel (f₀.Copy f') m' ∧ f.Planted f' m'.children) I := by
  refine memberMapM Forest.Planted.gathers lasting_copy (fun c _ f' hext' hf' => ?_) hf
  exact (duplicate hI hf' (.inr hbare)).imp fun f'' y _ _ hy =>
    ⟨hy.1.earlier (hext.trans hext'), hy.2⟩

theorem duplicateKey {E : RunError → Prop} (hI : Forest.Upheld I)
    (hbare : ∀ f, I f → I (f.push default)) (hext : f₀.Extends f) (hf : I f) (key : Key) :
    (duplicateKey key).Yields f E (fun f' key' => key'.node?.isSome = key.node?.isSome ∧
      List.Forall₂ (f₀.Copy f') key.nodes key'.nodes ∧ f.Planted f' key'.nodes) I := by
  have hcopy (x : NodeId) (f' : Forest s) (hext' : f.Extends f') (hf' : I f') :
      (Grow.duplicate x : Grow s RunError NodeId).Yields f' E (fun f'' y =>
        f₀.Copy f'' x y ∧ f'.Planted f'' [y]) I :=
    (duplicate hI hf' (.inr hbare)).imp fun f'' y _ _ hy =>
      ⟨hy.1.earlier (hext.trans hext'), hy.2⟩
  cases key with
  | node x =>
    refine (hcopy x f (.refl f) hf).map ?_
    rintro f' y - ⟨hy, hplanted⟩
    exact ⟨rfl, .cons hy .nil, hplanted⟩
  | run ordered items =>
    refine (mapM Forest.Planted.gathers ([·]) lasting_copy (fun x _ => hcopy x) hf).map ?_
    rintro f' ys - ⟨hys, hplanted⟩
    rw [List.flatMap_singleton'] at hplanted
    exact ⟨rfl, hys, hplanted⟩

/-! ### Rounds -/

/-- Rounds keep what every rebuild keeps of the root.  They end as their searches and rebuilds do,
or at the cap. -/
theorem rounds {find : Forest s → NodeId → Except Fault (Option Couplings)}
    {rebuild : Couplings → Grow s RunError NodeId} {rule : String} {strict : Bool}
    {E : RunError → Prop} {P : Forest s → NodeId → Prop}
    (hfind : ∀ f x e, f₀.Extends f → I f → P f x → find f x = .error e → E (.fault e))
    (hrebuild : ∀ f x c, f₀.Extends f → I f → P f x → find f x = .ok (some c) →
      (rebuild c).Yields f E P I)
    (hcap : ∀ n, E (.possiblyInfinite rule n)) (left hits : Nat) {x : NodeId}
    (hext : f₀.Extends f) (hf : I f) (hx : P f x) :
    (rounds find rebuild rule strict left hits x).Yields f E (fun f' a => P f' a.root) I := by
  induction left generalizing hits x f with
  | zero =>
    rw [Grow.rounds]
    refine .get ?_
    split
    next e he => exact .throw hf (hfind f x e hext hf hx he)
    next => exact .pure hf hx
    next c hc =>
      dsimp only
      split
      · exact .throw hf (hcap hits)
      · exact .pure hf hx
  | succ left ih =>
    rw [Grow.rounds]
    refine .get ?_
    split
    next e he => exact .throw hf (hfind f x e hext hf hx he)
    next => exact .pure hf hx
    next c hc =>
      refine (hrebuild f x c hext hf hx hc).bind ?_
      intro f' y hext' hf' hy
      exact ih (hits + 1) (hext.trans hext') hf' hy

end Yields

end Grow

end Espalier
