import Espalier.Proofs.Outcomes

/-!
# Building on terms

Every branch of a rebuild is gone through once, on terms that are left open: what is kept of the
forest, how a build may fail, what a pattern is built on and into, and what is said of the nodes
that come in.  Whoever wants to know something of what is built says on which terms its patterns
are, and finds here what has to be shown for the node, the way or the copy that a pattern is built
into.
-/

namespace Espalier

variable {s : Schema}

/-! ## Terms -/

/-- The terms on which patterns are built. -/
structure Terms (s : Schema) where
  /-- What is kept of the forest. -/
  forest : Forest s → Prop
  /-- How a build may fail. -/
  error : RunError → Prop
  /-- What a pattern may be built on. -/
  base : Forest s → PatternId → Key → Prop
  /-- What a pattern is built into. -/
  key : Forest s → PatternId → Key → Prop
  /-- What is said of the nodes that came in meanwhile. -/
  nodes : Forest s → Forest s → List NodeId → Prop

namespace Terms

/-- Terms that the steps of a build can be put together on. -/
structure Lawful (t : Terms s) : Prop where
  upheld : Forest.Upheld t.forest
  bare (f : Forest s) (hf : t.forest f) : t.forest (f.push default)
  lasting_base (p : PatternId) : Grow.Lasting fun f key => t.base f p key
  lasting_key (p : PatternId) : Grow.Lasting fun f key => t.key f p key
  gathers : Forest.Gathers t.nodes
  planted {f f' : Forest s} {xs : List NodeId} (h : f.Planted f' xs) : t.nodes f f' xs
  nodup {f f' : Forest s} {xs : List NodeId} (h : t.nodes f f' xs) : xs.Nodup

/-- What is built as `p` is a single node, or not to be is an error that may occur. -/
def Single (t : Terms s) (p : PatternId) : Prop :=
  ∀ f ordered items, t.key f p (.run ordered items) → t.error (.fault (.nonFinal p))

variable {α : Type} {build : α → Option Key → Grow s RunError Key} {index : α → PatternId}
  {t : Terms s} {f f₀ : Forest s} {p : PatternId}

/-- On every forest that has grown from `f₀`, the pattern is built on the terms. -/
def Builds (t : Terms s) (build : α → Option Key → Grow s RunError Key) (index : α → PatternId)
    (f₀ : Forest s) (q : α) : Prop :=
  ∀ f base, f₀.Extends f → t.forest f → (∀ key ∈ base, t.base f (index q) key) →
    (build q base).Yields f t.error
      (fun f' key => t.key f' (index q) key ∧ t.nodes f f' key.nodes) t.forest

/-- A key that has to be a single node. -/
theorem single {x : Grow s RunError Key} (hp : t.Single p)
    (h : x.Yields f t.error (fun f' key => t.key f' p key ∧ t.nodes f f' key.nodes) t.forest) :
    (x >>= Grow.single p).Yields f t.error
      (fun f' y => t.key f' p (.node y) ∧ t.nodes f f' [y]) t.forest := by
  refine h.bind ?_
  rintro f' key - hf' ⟨hkey, hnodes⟩
  cases key with
  | node y => exact .pure hf' ⟨hkey, hnodes⟩
  | run ordered items => exact .throw hf' (hp f' ordered items hkey)

theorem Builds.final {q : α} (h : t.Builds build index f₀ q) (hq : t.Single (index q))
    {base : Option Key} (hext : f₀.Extends f) (hf : t.forest f)
    (hbase : ∀ key ∈ base, t.base f (index q) key) :
    (buildFinal build index q base).Yields f t.error
      (fun f' y => t.key f' (index q) (.node y) ∧ t.nodes f f' [y]) t.forest :=
  single hq (h f base hext hf hbase)

theorem Lawful.yields_buildItems (ht : t.Lawful) {qs : List α}
    (h : ∀ q ∈ qs, t.Builds build index f₀ q) (hext : f₀.Extends f) (hf : t.forest f) :
    (buildItems build qs).Yields f t.error (fun f' ids =>
      (∃ keys, List.Forall₂ (fun q key => t.key f' (index q) key) qs keys ∧
        ids = keys.flatMap Key.nodes) ∧ t.nodes f f' ids) t.forest := by
  refine (Grow.Yields.mapM ht.gathers Key.nodes (fun q => ht.lasting_key (index q))
    (fun q hq f' hext' hf' => ?_) hf).map ?_
  · exact h q hq f' none (hext.trans hext') hf' (by simp)
  · rintro f' keys - ⟨hkeys, hnodes⟩
    exact ⟨⟨keys, hkeys, rfl⟩, hnodes⟩

theorem Lawful.yields_duplicateKey (ht : t.Lawful) (hext : f₀.Extends f) (hf : t.forest f)
    {key : Key} (hkey : ∀ f' key', key'.node?.isSome = key.node?.isSome →
      List.Forall₂ (f₀.Copy f') key.nodes key'.nodes → f.Fresh f' key'.nodes → t.key f' p key') :
    (Grow.duplicateKey key).Yields f t.error
      (fun f' key' => t.key f' p key' ∧ t.nodes f f' key'.nodes) t.forest := by
  refine (Grow.Yields.duplicateKey ht.upheld ht.bare hext hf key).imp ?_
  rintro f' key' - - ⟨hnode, hcopies, hplanted⟩
  exact ⟨hkey f' key' hnode hcopies hplanted.fresh, ht.planted hplanted⟩

/-- Terms that ask nothing of patterns but that what they are built into is new. -/
def plain (I : Forest s → Prop) (E : RunError → Prop) : Terms s where
  forest := I
  error := E
  base _ _ _ := True
  key _ _ _ := True
  nodes := Forest.Fresh

theorem lawful_plain {I : Forest s → Prop} {E : RunError → Prop} (hI : Forest.Upheld I)
    (hbare : ∀ f, I f → I (f.push default)) : (plain I E).Lawful where
  upheld := hI
  bare := hbare
  lasting_base _ _ _ _ _ := id
  lasting_key _ _ _ _ _ := id
  gathers := Forest.Fresh.gathers
  planted := Forest.Planted.fresh
  nodup := Forest.Fresh.nodup

end Terms

/-! ## Members -/

theorem keepFirst_eq_self {ids : List NodeId} (h : ids.Nodup) : keepFirst ids = ids := by
  have fold (kept rest : List NodeId) (h : (kept ++ rest).Nodup) :
      rest.foldl (fun kept x => if x ∈ kept then kept else kept ++ [x]) kept = kept ++ rest := by
    induction rest generalizing kept with
    | nil => simp
    | cons x rest ih =>
      have hx : x ∉ kept := fun hx => (List.nodup_append.mp h).2.2 x hx x (by simp) rfl
      rw [List.foldl_cons, if_neg hx, ih (kept ++ [x]) (by simpa using h)]
      simp
  exact fold [] ids h

section Members

variable {α : Type} {build : α → Option Key → Grow s RunError Key} {index : α → PatternId}
  {t : Terms s} {f f₀ : Forest s}

/-- The member is put together of what was built for the patterns of another one. -/
inductive Member.Made (K : α → Key → Prop) : Member α → Member NodeId → Prop where
  | none : Made K (.single none) (.single none)
  | single {q : α} {y : NodeId} (h : K q (.node y)) : Made K (.single (some q)) (.single (some y))
  | sequence {qs : List α} {keys : List Key} (h : List.Forall₂ K qs keys) :
      Made K (.sequence qs) (.sequence (keys.flatMap Key.nodes))
  | collection {qs : List α} {keys : List Key} (h : List.Forall₂ K qs keys) :
      Made K (.collection qs) (.collection (keys.flatMap Key.nodes))

theorem Member.Made.category_eq {K : α → Key → Prop} {m : Member α} {made : Member NodeId}
    (h : m.Made K made) : made.category = m.category := by
  cases h <;> rfl

/-- No element of a collection is dropped, as what comes in has none twice. -/
theorem Terms.Lawful.yields_buildMember (ht : t.Lawful) {m : Member α}
    (h : ∀ q ∈ m.children, t.Builds build index f₀ q)
    (hsingle : ∀ q, m = .single (some q) → t.Single (index q)) (hext : f₀.Extends f)
    (hf : t.forest f) :
    (buildMember build index m).Yields f t.error (fun f' made =>
      m.Made (fun q key => t.key f' (index q) key) made ∧ t.nodes f f' made.children) t.forest := by
  cases m with
  | single q =>
    cases q with
    | none => exact .pure hf ⟨.none, ht.gathers.nil f⟩
    | some q =>
      have hq : q ∈ (Member.single (some q)).children := by simp [Member.children]
      refine ((h q hq).final (hsingle q rfl) hext hf (by simp)).map ?_
      rintro f' y - ⟨hy, hnodes⟩
      exact ⟨.single hy, hnodes⟩
  | sequence qs =>
    refine (ht.yields_buildItems h hext hf).map ?_
    rintro f' _ - ⟨⟨keys, hkeys, rfl⟩, hnodes⟩
    exact ⟨.sequence hkeys, hnodes⟩
  | collection qs =>
    refine (ht.yields_buildItems h hext hf).map ?_
    rintro f' _ - ⟨⟨keys, hkeys, rfl⟩, hnodes⟩
    rw [keepFirst_eq_self (ht.nodup hnodes)]
    exact ⟨.collection hkeys, hnodes⟩

theorem Terms.Lawful.yields_buildMembers (ht : t.Lawful) {ms : List (Member α)}
    (h : ∀ m ∈ ms, ∀ q ∈ m.children, t.Builds build index f₀ q)
    (hsingle : ∀ q, .single (some q) ∈ ms → t.Single (index q)) (hext : f₀.Extends f)
    (hf : t.forest f) :
    (ms.mapM (buildMember build index)).Yields f t.error (fun f' mades =>
      List.Forall₂ (fun m made => made.category = m.category) ms mades ∧
        t.nodes f f' (mades.flatMap Member.children)) t.forest := by
  refine Grow.Yields.mapM ht.gathers Member.children (fun m _ _ _ _ h => h)
    (fun m hm f' hext' hf' => ?_) hf
  refine (ht.yields_buildMember (h m hm) (fun q hq => hsingle q (hq ▸ hm))
    (hext.trans hext') hf').imp ?_
  rintro f'' made - - ⟨hmade, hnodes⟩
  exact ⟨hmade.category_eq, hnodes⟩

/-- What a member of a pattern does with one of a node: it leaves it as it is, copies it, builds its
pattern on the child that is there, or is built on its own. -/
theorem overlayMember_cases (build : α → Option Key → Grow s RunError Key) (index : α → PatternId)
    (m : Member α) (kept : Member NodeId) :
    (m.children = [] ∧ m.category ≠ kept.category ∧ overlayMember build index m kept = pure kept) ∨
    (m.children = [] ∧ overlayMember build index m kept = kept.mapM Grow.duplicate) ∨
    (∃ q child, m = .single (some q) ∧ kept = .single (some child) ∧
      overlayMember build index m kept =
        (do return .single (some (← buildFinal build index q (some (.node child)))))) ∨
    (m.children ≠ [] ∧ (∀ q child, m = .single (some q) → kept ≠ .single (some child)) ∧
      overlayMember build index m kept = buildMember build index m) := by
  rcases m with (_ | q) | (_ | ⟨q, qs⟩) | (_ | ⟨q, qs⟩)
  · rcases kept with child | items | items
    · exact .inr (.inl ⟨rfl, rfl⟩)
    · exact .inl ⟨rfl, by simp [Member.category], rfl⟩
    · exact .inl ⟨rfl, by simp [Member.category], rfl⟩
  · rcases kept with (_ | child) | items | items
    · exact .inr (.inr (.inr ⟨by simp [Member.children], by simp, rfl⟩))
    · exact .inr (.inr (.inl ⟨q, child, rfl, rfl, rfl⟩))
    · exact .inr (.inr (.inr ⟨by simp [Member.children], by simp, rfl⟩))
    · exact .inr (.inr (.inr ⟨by simp [Member.children], by simp, rfl⟩))
  · rcases kept with child | items | items
    · exact .inl ⟨rfl, by simp [Member.category], rfl⟩
    · exact .inr (.inl ⟨rfl, rfl⟩)
    · exact .inr (.inl ⟨rfl, rfl⟩)
  · exact .inr (.inr (.inr ⟨by simp [Member.children], by simp, rfl⟩))
  · rcases kept with child | items | items
    · exact .inl ⟨rfl, by simp [Member.category], rfl⟩
    · exact .inr (.inl ⟨rfl, rfl⟩)
    · exact .inr (.inl ⟨rfl, rfl⟩)
  · exact .inr (.inr (.inr ⟨by simp [Member.children], by simp, rfl⟩))

/-- How a member of a node comes out where a member of a pattern, if it has one there, is laid over
it. -/
inductive Member.Laid (K : α → Key → Prop) (T : NodeId → NodeId → Prop) :
    Option (Member α) → Member NodeId → Member NodeId → Prop where
  | beyond {kept made : Member NodeId} (h : kept.Parallel T made) : Laid K T none kept made
  | unlike {m : Member α} {kept : Member NodeId} (h : m.category ≠ kept.category) :
      Laid K T (some m) kept kept
  | unsaid {m : Member α} {kept made : Member NodeId} (hm : m.children = [])
      (h : kept.Parallel T made) : Laid K T (some m) kept made
  | made {m : Member α} {kept made : Member NodeId} (hm : m.children ≠ []) (h : m.Made K made) :
      Laid K T (some m) kept made

theorem Member.Made.mono {K K' : α → Key → Prop} {m : Member α} {made : Member NodeId}
    (h : m.Made K made) (hK : ∀ q key, K q key → K' q key) : m.Made K' made := by
  cases h with
  | none => exact .none
  | single h => exact .single (hK _ _ h)
  | sequence h => exact .sequence (h.imp hK)
  | collection h => exact .collection (h.imp hK)

theorem Member.Laid.mono {K K' : α → Key → Prop} {T T' : NodeId → NodeId → Prop}
    {m : Option (Member α)} {kept made : Member NodeId} (h : Member.Laid K T m kept made)
    (hK : ∀ q key, K q key → K' q key) (hT : ∀ x y, T x y → T' x y) :
    Member.Laid K' T' m kept made := by
  cases h with
  | beyond h => exact .beyond (h.mono fun x _ y _ => hT x y)
  | unlike h => exact .unlike h
  | unsaid hm h => exact .unsaid hm (h.mono fun x _ y _ => hT x y)
  | made hm h => exact .made hm (h.mono hK)

theorem Member.Laid.category_eq {K : α → Key → Prop} {T : NodeId → NodeId → Prop}
    {m : Option (Member α)} {kept made : Member NodeId} (h : Member.Laid K T m kept made)
    (hm : ∀ m' ∈ m, m'.category = kept.category) : made.category = kept.category := by
  cases h with
  | beyond h => exact h.category_eq.symm
  | unlike _ => rfl
  | unsaid _ h => exact h.category_eq.symm
  | made _ h => exact h.category_eq.trans (hm _ rfl)

/-- Members that continue others have the categories of those, place by place. -/
theorem Member.category_eq_of_isPrefix {β : Type} {ms : List (Member α)} {kept : List (Member β)}
    {i : Nat} {m : Member α} {k : Member β}
    (hfit : ms.map Member.category <+: kept.map Member.category) (hm : ms[i]? = some m)
    (hk : kept[i]? = some k) : m.category = k.category := by
  obtain ⟨hlt, rfl⟩ := List.getElem?_eq_some_iff.mp hm
  obtain ⟨hlt', rfl⟩ := List.getElem?_eq_some_iff.mp hk
  have hget := hfit.getElem (by rwa [List.length_map])
  rwa [List.getElem_map, List.getElem_map] at hget

theorem Member.map_category_of_laid {K : α → Key → Prop} {T : NodeId → NodeId → Prop}
    {ms : List (Member α)} {kept mades : List (Member NodeId)}
    (hlength : mades.length = kept.length) (hlaid : ∀ (i : Nat) k made, kept[i]? = some k →
      mades[i]? = some made → Member.Laid K T ms[i]? k made)
    (hfit : ms.map Member.category <+: kept.map Member.category) :
    mades.map Member.category = kept.map Member.category := by
  refine List.ext_getElem (by simp [hlength]) fun i hi hi' => ?_
  rw [List.length_map] at hi hi'
  rw [List.getElem_map, List.getElem_map]
  refine (hlaid i _ _ (List.getElem?_eq_getElem hi') (List.getElem?_eq_getElem hi)).category_eq ?_
  exact fun m hm => category_eq_of_isPrefix hfit hm (List.getElem?_eq_getElem hi')

theorem Terms.Lawful.yields_copyMember (ht : t.Lawful) (hext : f₀.Extends f) (hf : t.forest f)
    (m : Member NodeId) :
    (m.mapM Grow.duplicate : Grow s RunError (Member NodeId)).Yields f t.error (fun f' made =>
      m.Parallel (f₀.Copy f') made ∧ t.nodes f f' made.children) t.forest :=
  (Grow.Yields.copyMember ht.upheld ht.bare hext hf m).imp fun _ _ _ _ h => ⟨h.1, ht.planted h.2⟩

theorem Terms.Lawful.yields_overlayMember (ht : t.Lawful) {m : Member α} {kept : Member NodeId}
    (h : ∀ q ∈ m.children, t.Builds build index f₀ q)
    (hsingle : ∀ q, m = .single (some q) → t.Single (index q))
    (hbase : ∀ q child, m = .single (some q) → kept = .single (some child) →
      t.base f (index q) (.node child)) (hext : f₀.Extends f) (hf : t.forest f) :
    (overlayMember build index m kept).Yields f t.error (fun f' made =>
      Member.Laid (fun q key => t.key f' (index q) key) (f₀.Copy f') (some m) kept made ∧
        (m.category = kept.category → t.nodes f f' made.children)) t.forest := by
  obtain ⟨-, hne, hrun⟩ | ⟨hm, hrun⟩ | ⟨q, child, rfl, rfl, hrun⟩ | ⟨hm, -, hrun⟩ :=
    overlayMember_cases build index m kept
  · rw [hrun]
    exact .pure hf ⟨.unlike hne, fun heq => absurd heq hne⟩
  · rw [hrun]
    refine (ht.yields_copyMember hext hf kept).imp ?_
    rintro f' made - - ⟨hmade, hnodes⟩
    exact ⟨.unsaid hm hmade, fun _ => hnodes⟩
  · rw [hrun]
    have hq : q ∈ (Member.single (some q)).children := by simp [Member.children]
    refine ((h q hq).final (hsingle q rfl) hext hf (by simpa using hbase q child rfl rfl)).map ?_
    rintro f' y - ⟨hy, hnodes⟩
    exact ⟨.made (List.ne_nil_of_mem hq) (.single hy), fun _ => hnodes⟩
  · rw [hrun]
    refine (ht.yields_buildMember h hsingle hext hf).imp ?_
    rintro f' made - - ⟨hmade, hnodes⟩
    exact ⟨.made hm hmade, fun _ => hnodes⟩

/-- Members are laid over each other one by one. -/
theorem yields_overlayMembers {I : Forest s → Prop} {E : RunError → Prop}
    {G : Forest s → Forest s → List NodeId → Prop} (hG : Forest.Gathers G)
    {R : Forest s → Option (Member α) → Member NodeId → Member NodeId → Prop}
    (hR : ∀ m k, Grow.Lasting fun f made => R f m k made) {misfit : Fault} {ms : List (Member α)}
    {kept : List (Member NodeId)}
    (hrest : ∀ k ∈ kept, ∀ f', f.Extends f' → I f' →
      (k.mapM Grow.duplicate : Grow s RunError (Member NodeId)).Yields f' E (fun f'' made =>
        R f'' none k made ∧ G f' f'' made.children) I)
    (hlay : ∀ (i : Nat) m k, ms[i]? = some m → kept[i]? = some k → ∀ f', f.Extends f' → I f' →
      (overlayMember build index m k).Yields f' E (fun f'' made =>
        R f'' (some m) k made ∧ (m.category = k.category → G f' f'' made.children)) I)
    (hmisfit : ms.length ≤ kept.length ∨ E (.fault misfit) ∧ ∀ m ∈ ms, ∀ f', f.Extends f' → I f' →
      (buildMember build index m).Yields f' E (fun _ _ => True) I) (hf : I f) :
    (overlayMembers build index misfit ms kept).Yields f E (fun f' mades =>
      mades.length = kept.length ∧ (∀ (i : Nat) k made, kept[i]? = some k → mades[i]? = some made →
        R f' ms[i]? k made) ∧ (ms.map Member.category <+: kept.map Member.category →
          G f f' (mades.flatMap Member.children))) I := by
  induction ms generalizing kept f with
  | nil =>
    refine (Grow.Yields.mapM hG Member.children (fun k => hR none k) hrest hf).imp ?_
    rintro f' mades - - ⟨hmades, hnodes⟩
    refine ⟨hmades.length_eq.symm, fun i k made hk hmade => ?_, fun _ => hnodes⟩
    obtain ⟨hi, rfl⟩ := List.getElem?_eq_some_iff.mp hk
    obtain ⟨hi', rfl⟩ := List.getElem?_eq_some_iff.mp hmade
    exact hmades.get hi hi'
  | cons m ms ih =>
    cases kept with
    | nil =>
      obtain ⟨herror, hbuild⟩ := hmisfit.resolve_left (Nat.not_succ_le_zero _)
      rw [List.forall_mem_cons] at hbuild
      rw [overlayMembers]
      split
      · refine (ih hrest (fun i m k _ hk => by simp at hk) (.inr ⟨herror, hbuild.2⟩) hf).imp ?_
        rintro f' mades - - ⟨hlength, -⟩
        exact ⟨hlength, fun i k made hk => by simp at hk, fun hfit => by simp at hfit⟩
      · exact (hbuild.1 f (.refl f) hf).bind fun f' _ _ hf' _ => .throw hf' herror
    | cons k kept =>
      rw [List.forall_mem_cons] at hrest
      rw [overlayMembers]
      refine (hlay 0 m k rfl rfl f (.refl f) hf).bind ?_
      rintro f₁ made hext₁ hf₁ ⟨hmade, hnodes⟩
      refine Grow.Yields.map (ih (fun k hk f' hext => hrest.2 k hk f' (hext₁.trans hext))
        (fun i m k hm hk f' hext => hlay (i + 1) m k hm hk f' (hext₁.trans hext))
        (hmisfit.imp Nat.le_of_succ_le_succ fun h => ⟨h.1, fun m hm f' hext =>
          h.2 m (List.mem_cons_of_mem _ hm) f' (hext₁.trans hext)⟩) hf₁) ?_
      rintro f₂ mades hext₂ ⟨hlength, hmades, hgather⟩
      refine ⟨by rw [List.length_cons, List.length_cons, hlength], fun i k' made' hk' hmade' => ?_,
        fun hfit => ?_⟩
      · cases i with
        | zero =>
          cases hk'
          cases hmade'
          exact hR _ _ f₁ f₂ made hext₂ hmade
        | succ i => exact hmades i k' made' hk' hmade'
      · rw [List.map_cons, List.map_cons, List.cons_prefix_cons] at hfit
        exact hG.append hext₁ hext₂ (hnodes hfit.1) (hgather hfit.2)

theorem Terms.Lawful.yields_overlayMembers (ht : t.Lawful) {misfit : Fault} {ms : List (Member α)}
    {kept : List (Member NodeId)} (h : ∀ m ∈ ms, ∀ q ∈ m.children, t.Builds build index f₀ q)
    (hsingle : ∀ q, .single (some q) ∈ ms → t.Single (index q))
    (hbase : ∀ q child, .single (some q) ∈ ms → .single (some child) ∈ kept →
      t.base f (index q) (.node child))
    (hmisfit : ms.length ≤ kept.length ∨ t.error (.fault misfit)) (hext : f₀.Extends f)
    (hf : t.forest f) :
    (overlayMembers build index misfit ms kept).Yields f t.error (fun f' mades =>
      mades.length = kept.length ∧ (∀ (i : Nat) k made, kept[i]? = some k → mades[i]? = some made →
        Member.Laid (fun q key => t.key f' (index q) key) (f₀.Copy f') ms[i]? k made) ∧
      (ms.map Member.category <+: kept.map Member.category →
        t.nodes f f' (mades.flatMap Member.children))) t.forest := by
  refine Espalier.yields_overlayMembers ht.gathers (fun m k f₁ f₂ made hext' hmade => ?_)
    (fun k _ f' hext' hf' => ?_) (fun i m k hm hk f' hext' hf' => ?_)
    (hmisfit.imp_right fun herror => ⟨herror, fun m hm f' hext' hf' => ?_⟩) hf
  · exact hmade.mono (fun q key => ht.lasting_key (index q) f₁ f₂ key hext') fun x y hxy hx =>
      hext'.twins (hxy hx)
  · exact (ht.yields_copyMember (hext.trans hext') hf' k).imp fun _ _ _ _ h => ⟨.beyond h.1, h.2⟩
  · have hmem := List.mem_of_getElem? hm
    refine ht.yields_overlayMember (h m hmem) (fun q hq => hsingle q (hq ▸ hmem))
      (fun q child hq hc => ?_) (hext.trans hext') hf'
    refine ht.lasting_base _ f f' _ hext' (hbase q child (hq ▸ hmem) ?_)
    exact hc ▸ List.mem_of_getElem? hk
  · refine (ht.yields_buildMember (h m hm) (fun q hq => hsingle q (hq ▸ hm)) (hext.trans hext')
      hf').imp ?_
    exact fun _ _ _ _ _ => trivial

end Members

/-! ## Nodes -/

section Nodes

variable {α : Type} {build : α → Option Key → Grow s RunError Key} {index : α → PatternId}
  {E : RunError → Prop} {I : Forest s → Prop} {f f₀ : Forest s} {Q : Forest s → Key → Prop}

/-- A node of new members, one for each that its kind has, passes the check if its value does. -/
theorem Forest.check_of_fresh {f' : Forest s} {kind : KindId} {value : Option Value}
    {members : List (Member NodeId)} (hkind : kind < s.size)
    (hvalue : value.isSome → s.isValued kind) (hfit : MembersFit (s.layout kind) members)
    (hfresh : f.Fresh f' (members.flatMap Member.children)) :
    f'.check ⟨kind, value, members⟩ = .ok () :=
  check_eq_ok_iff.mpr ⟨⟨hkind, hvalue, hfit, Node.unrepeated_of_nodup hfresh.nodup⟩, hfresh.lt_size⟩

/-- A node of members that have been built is put in if it passes the check. -/
theorem yields_insertNode {ms : Grow s RunError (List (Member NodeId))} {kind : KindId}
    {value : Option Value} {R : Forest s → List (Member NodeId) → Prop} (hI : Forest.Upheld I)
    (h : ms.Yields f E R I)
    (hcheck : ∀ f' members e, f.Extends f' → I f' → R f' members →
      f'.check ⟨kind, value, members⟩ = .error e → E (.fault (.schema e)))
    (hQ : ∀ f' members, f.Extends f' → R f' members → ∀ f'', f'' = f'.push ⟨kind, value, members⟩ →
      f'.Extends f'' → f'.New f'' f'.size → f''.get f'.size = ⟨kind, value, members⟩ →
        Q f'' (.node f'.size)) :
    (do
      let members ← ms
      return Key.node (← Grow.orFault (Grow.insert { kind, value, members }))).Yields f E Q I := by
  refine h.bind ?_
  intro f' members hext hf' hmembers
  refine (Grow.Yields.orFault (.insert hI hf' fun e =>
    hcheck f' members e hext hf' hmembers)).map ?_
  rintro f'' y hext' ⟨hpush, rfl, hget, hnew⟩
  exact hQ f' members hext hmembers f'' hpush hext' hnew hget

/-- A standard pattern is laid over the node of its key, or built on its own if that is none of its
kind. -/
theorem yields_buildNode {p : PatternId} {kind : KindId} {value : Option Value}
    {members : List (Member α)} {key : Option Key}
    (hover : ∀ k, key = some (.node k) → s.isSubkind (f.get k).kind kind = true →
      (do
        let members ← overlayMembers build index (.itemise p k) members (f.get k).members
        return Key.node (← Grow.orFault (Grow.insert
          { kind := (f.get k).kind, value := value.or (f.get k).value, members }))).Yields f E Q I)
    (halone : (∀ k, key = some (.node k) → s.isSubkind (f.get k).kind kind ≠ true) →
      (do
        let members ← members.mapM (buildMember build index)
        return Key.node (← Grow.orFault (Grow.insert { kind, value, members }))).Yields f E Q I) :
    (buildNode build index p kind value members key).Yields f E Q I := by
  have hkey {k : NodeId} : key.bind Key.node? = some k ↔ key = some (.node k) := by
    rcases key with _ | (x | ⟨ordered, items⟩) <;> simp [Key.node?]
  refine .get ?_
  split
  next k hfound =>
    obtain ⟨hk, hkind⟩ := Option.filter_eq_some_iff.mp hfound
    exact hover k (hkey.mp hk) hkind
  next hfound =>
    exact halone fun k hk => Option.filter_eq_none_iff.mp hfound k (hkey.mpr hk)

/-- A star is copied if it stands for a run. -/
theorem yields_buildRun {p : PatternId} {key : Option Key} (hf : I f)
    (hunbound : E (.fault (.unboundWildcard p)))
    (hcopy : ∀ ordered items, key = some (.run ordered items) →
      (Grow.duplicateKey (.run ordered items)).Yields f E Q I) :
    (buildRun p key).Yields f E Q I := by
  rcases key with _ | (x | ⟨ordered, items⟩)
  · exact .throw hf hunbound
  · exact .throw hf hunbound
  · exact hcopy ordered items rfl

/-- A pattern that only searches is copied if it is coupled. -/
theorem yields_buildCopy {p : PatternId} {key : Option Key} (hf : I f)
    (hunbound : key = none → E (.fault (.searchOnly p)))
    (hcopy : ∀ k, key = some k → (Grow.duplicateKey k).Yields f E Q I) :
    (buildCopy p key).Yields f E Q I := by
  cases key with
  | none => exact .throw hf (hunbound rfl)
  | some k => exact hcopy k rfl

end Nodes

/-! ## Ways down -/

section Ways

variable {α : Type} {build : α → Option Key → Grow s RunError Key} {index : α → PatternId}
  {t : Terms s} {E : RunError → Prop} {I : Forest s → Prop} {f f₀ : Forest s}

/-- A node takes the place of the last one on a way, and from there on up every node that has
another child below it takes the place of the one that had the old child. -/
theorem yields_rebuildAlong {Q : Site → Forest s → NodeId → Prop} {path : List Site}
    {child : NodeId} (hf : I f) (hlast : ∀ bottom ∈ path.getLast?, Q bottom f child)
    (hstep : path.IsChain fun top bottom => ∀ f' y, f.Extends f' → I f' → Q bottom f' y →
      (Grow.orFault (Grow.withChild top.node bottom.member bottom.position y)).Yields f'
        E (Q top) I) :
    (rebuildAlong path child).Yields f E (fun f' y => ∀ top ∈ path.head?, Q top f' y) I := by
  induction path with
  | nil => exact .pure hf (by simp)
  | cons top path ih =>
    cases path with
    | nil => exact .pure hf (by simpa using hlast)
    | cons bottom path =>
      obtain ⟨hfirst, hrest⟩ := List.isChain_cons_cons.mp hstep
      refine (ih (by simpa using hlast) hrest).bind ?_
      intro f' y hext hf' hy
      refine (hfirst f' y hext hf' (hy bottom rfl)).imp ?_
      rintro f'' z - - hz _ ⟨⟩
      exact hz

/-- A new node at the end of a way makes a new one of its start. -/
theorem yields_rebuildAlong_new (hI : Forest.Upheld I) (hE : ∀ e, E (.fault (.schema e)))
    (path : List Site) {child : NodeId} (hext : f₀.Extends f) (hf : I f) (hchild : f₀.New f child) :
    (rebuildAlong path child).Yields f E (fun f' y => f₀.New f' y) I := by
  cases path with
  | nil => exact .pure hf hchild
  | cons top path =>
    refine (yields_rebuildAlong (Q := fun _ f' y => f₀.New f' y) hf (fun _ _ => hchild) ?_).imp
      fun f' y _ _ h => h top rfl
    refine (List.pairwise_of_forall fun top bottom f' y hext' hf' _ => ?_).isChain
    refine (Grow.Yields.orFault (.withChild hI hf' (fun e _ => hE e) fun _ e _ _ => hE e)).imp ?_
    rintro f'' z - - ⟨-, hz⟩
    exact hz.earlier (hext.trans hext')

/-- A way that starts at the node of the key is the one that is gone along. -/
theorem buildBelow_of_head {p : PatternId} {terminus : α} {path : List Site} {x : NodeId}
    (hhead : path.head?.map Site.node = some x) :
    buildBelow build index p terminus (some path) (some (.node x)) = (do
      let bottom ← buildFinal build index terminus none
      return .node (← rebuildAlong path bottom)) := by
  have hfilter : (some path).filter (fun path => path.head?.map (·.node) = some x) = some path := by
    rw [Option.filter_some, if_pos]
    simpa using hhead
  rw [buildBelow, hfilter]

/-- What stands for a way down is built at its end, if the way is on record, and put back along
it. -/
theorem Terms.Builds.below {terminus : α} (h : t.Builds build index f₀ terminus)
    (hsingle : t.Single (index terminus)) {p : PatternId} {path? : Option (List Site)}
    {key : Option Key} {Q : Forest s → Key → Prop} (hext : f₀.Extends f) (hf : t.forest f)
    (hunbound : (∀ top, key ≠ some (.node top)) → t.error (.fault (.unboundWildcard p)))
    (hlost : ∀ top, key = some (.node top) →
      (∀ path ∈ path?, path.head?.map Site.node ≠ some top) → t.error (.fault (.terminusLost p)))
    (halong : ∀ top path f' bottom, key = some (.node top) → path? = some path →
      path.head?.map Site.node = some top → f.Extends f' → t.forest f' →
      t.key f' (index terminus) (.node bottom) → t.nodes f f' [bottom] →
      (rebuildAlong path bottom).Yields f' t.error (fun f'' y => Q f'' (.node y)) t.forest) :
    (buildBelow build index p terminus path? key).Yields f t.error Q t.forest := by
  rcases key with _ | (top | ⟨ordered, items⟩)
  · exact .throw hf (hunbound (by simp))
  · rw [buildBelow]
    split
    next hnone =>
      refine .throw hf (hlost top rfl fun path hpath => ?_)
      simpa using Option.filter_eq_none_iff.mp hnone path hpath
    next path hpath =>
      obtain ⟨hpath, hhead⟩ := Option.filter_eq_some_iff.mp hpath
      refine (h.final hsingle hext hf (by simp)).bind ?_
      rintro f' bottom hext' hf' ⟨hbottom, hnodes⟩
      refine (halong top path f' bottom rfl hpath (by simpa using hhead) hext' hf' hbottom
        hnodes).map ?_
      exact fun f'' y _ hy => hy
  · exact .throw hf (hunbound (by simp))

end Ways

/-! ## Slaves and patterns -/

/-- The faults that no rule and no subject should be able to cause. -/
def Fault.isInternal : Fault → Bool
  | .decisionReshaped .. | .unboundResidual _ | .itemise .. | .keyShape _ | .missingPlan .. => true
  | _ => false

namespace Workshop

variable {shop : Workshop s} {E : RunError → Prop} {I : Forest s → Prop}
  {f : Forest s} {view : View}

/-- Rounds of a workshop keep what every rebuild keeps of the root. -/
theorem yields_rounds {search : Plan} {rebuild : Couplings → Grow s RunError NodeId}
    {P : Forest s → NodeId → Prop} {x : NodeId}
    (hfind : ∀ f' x e, f.Extends f' → I f' → P f' x →
      Scene.search ⟨f', shop.patterns, f.size⟩ search (.node x) view = .error e → E (.fault e))
    (hrebuild : ∀ f' x c, f.Extends f' → I f' → P f' x →
      Scene.search ⟨f', shop.patterns, f.size⟩ search (.node x) view = .ok (some c) →
        (rebuild c).Yields f' E P I)
    (hcap : ∀ n, E (.possiblyInfinite shop.rule n)) (hf : I f) (hx : P f x) :
    (shop.rounds search view rebuild x).Yields f E (fun f' a => P f' a.root) I :=
  .get (.rounds hfind hrebuild hcap _ _ (.refl f) hf hx)

/-- A slave is run if there is a plan for it. -/
theorem yields_buildSlave {p : PatternId} {rebuild : RulePlan → Couplings → Grow s RunError NodeId}
    {built : NodeId} {plan? : Option RulePlan} {Q : Forest s → Key → Prop} (hf : I f)
    (hmissing : plan? = none → E (.fault (.missingPlan p 0)))
    (hrounds : ∀ plan, plan? = some plan →
      (shop.rounds plan.search view (rebuild plan) built).Yields f E
      (fun f' a => Q f' (.node a.root)) I) :
    (shop.buildSlave view p rebuild built plan?).Yields f E Q I := by
  cases plan? with
  | none => exact .throw hf (hmissing rfl)
  | some plan => exact (hrounds plan rfl).map fun f' a _ ha => ha

/-- Whatever the agent of a pattern is, the pattern is built on plain terms if those are that it
refers to.  All faults that a subject or a rule may cause are errors of the terms.  Of a pattern
with more members than the node that it is laid over, and of the rounds of a slave, it is to be said
what they come to. -/
theorem builds_plain {plan : RulePlan} {p : PatternId} {f₀ : Forest s} (hI : Forest.Upheld I)
    (hbare : ∀ f, I f → I (f.push default)) (hE : ∀ e : Fault, e.isInternal = false → E (.fault e))
    (inner : ∀ q ∈ (shop.patterns.pattern p).agent.rebuilt,
      (Terms.plain I E).Builds (shop.build plan view) id f₀ q.val)
    (hfit : ∀ value members (f : Forest s) k,
      (shop.patterns.pattern p).agent = .standard value members → I f →
      s.isSubkind (f.get k).kind (shop.patterns.pattern p).kind = true →
      members.length ≤ (f.get k).members.length ∨ E (.fault (.itemise p k)))
    (hslave : ∀ through root (f f' : Forest s) built,
      (shop.patterns.pattern p).agent = .slave through root → f.Extends f' → I f' → f.New f' built →
      (shop.buildSlave view p (fun plan c => shop.build plan (c :: view) root.val none >>=
        Grow.single root.val) built (plan.slave? p)).Yields f' E
          (fun f'' key => f.Fresh f'' key.nodes) I) :
    (Terms.plain I E).Builds (shop.build plan view) id f₀ p := by
  have ht : (Terms.plain I E).Lawful := Terms.lawful_plain hI hbare
  have hsingle (q : PatternId) : (Terms.plain I E).Single q := fun _ _ _ _ => hE _ rfl
  intro f base hext hf _
  have hcopy (key : Key) : (Grow.duplicateKey key).Yields f E
      (fun f' key' => True ∧ f.Fresh f' key'.nodes) I :=
    ht.yields_duplicateKey (p := p) (.refl f) hf fun _ _ _ _ _ => trivial
  have hnode {kind : KindId} {value : Option Value} {ms : Grow s RunError (List (Member NodeId))}
      {R : Forest s → List (Member NodeId) → Prop} (hms : ms.Yields f E R I) :
      (do
        let members ← ms
        return Key.node (← Grow.orFault (Grow.insert { kind, value, members }))).Yields f E
        (fun f' key => True ∧ f.Fresh f' key.nodes) I :=
    yields_insertNode hI hms (fun _ _ _ _ _ _ _ => hE _ rfl)
      fun f' _ hext' _ f'' _ _ hnew _ => ⟨trivial, (hnew.earlier hext').fresh⟩
  have hbelow {terminus : Fin p} (hterminus : terminus ∈ (shop.patterns.pattern p).agent.rebuilt) :
      (buildBelow (fun (q : Fin p) => shop.build plan view q.val) Fin.val p terminus (view.path? p)
        ((view.get? p).or base)).Yields f E (fun f' key => True ∧ f.Fresh f' key.nodes) I := by
    refine Terms.Builds.below (inner terminus hterminus) (hsingle _) hext hf (fun _ => hE _ rfl)
      (fun _ _ _ => hE _ rfl) fun top path f' bottom _ _ _ hext' hf' _ hbottom => ?_
    refine (yields_rebuildAlong_new hI (fun _ => hE _ rfl) path hext' hf' hbottom.head).imp ?_
    exact fun f'' y _ _ hy => ⟨trivial, hy.fresh⟩
  rw [build]
  dsimp only
  generalize hagent : (shop.patterns.pattern p).agent = agent at inner hfit hslave hbelow ⊢
  cases agent with
  | standard value members =>
    have hmember (m) (hm : m ∈ members) (q) (hq : q ∈ m.children) :=
      inner q (List.mem_flatMap_of_mem hm hq)
    refine yields_buildNode (fun k _ hkind => ?_) fun _ => ?_
    · exact hnode (ht.yields_overlayMembers hmember (fun q _ => hsingle _) (fun _ _ _ _ => trivial)
        (hfit value members f k rfl hf hkind) hext hf)
    · exact hnode (ht.yields_buildMembers hmember (fun q _ => hsingle _) hext hf)
  | star restriction => exact yields_buildRun hf (hE _ rfl) fun _ _ _ => hcopy _
  | stuff terminus restriction => exact hbelow (by simp [Agent.rebuilt])
  | anyNode terminus => exact hbelow (by simp [Agent.rebuilt])
  | overlay through above =>
    exact inner above (by simp [Agent.rebuilt]) f _ hext hf fun _ _ => trivial
  | greenGrass through =>
    exact inner through (by simp [Agent.rebuilt]) f _ hext hf fun _ _ => trivial
  | notMatch q => exact yields_buildCopy hf (fun _ => hE _ rfl) fun _ _ => hcopy _
  | matchAll qs => exact yields_buildCopy hf (fun _ => hE _ rfl) fun _ _ => hcopy _
  | matchAny qs => exact yields_buildCopy hf (fun _ => hE _ rfl) fun _ _ => hcopy _
  | slave through root =>
    have hthrough : (Terms.plain I E).Builds
        (fun (q : Fin p) => shop.build plan view q.val) Fin.val f₀ through :=
      inner through (by simp [Agent.rebuilt])
    refine (hthrough.final (hsingle _) hext hf fun _ _ => trivial).bind ?_
    rintro f' built hext' hf' ⟨-, hbuilt⟩
    refine (hslave through root f f' built rfl hext' hf' hbuilt.head).imp ?_
    exact fun f'' key _ _ hkey => ⟨trivial, hkey⟩

end Workshop

end Espalier
