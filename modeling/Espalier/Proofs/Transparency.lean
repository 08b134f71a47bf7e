import Espalier.Proofs.Solution
import Espalier.Proofs.Wrapping

/-!
# A disjunction of one is transparent

A pattern and the disjunction of it alone match the same nodes, but the disjunction has a scope of
its own: what is keyed below it is out of sight of the regions outside.  Where no region refers to
anything out of its sight this makes no difference.  What the patterns stand for in the one search
they stand for in the other, the disjunction for what its only disjunct does.
-/

namespace Espalier

open PatternSet (skip Redirects)

variable {s : Schema}

/-- Two searches, the second one with a disjunction of `q` put in at `m`: the same of the patterns
that they may come to are keyed around them, and are bound to equal keys. -/
structure Alongside (f : Forest s) (watermark : Nat) (ps ps' : PatternSet s)
    (q m root root' : PatternId) (keyed keyed' : List PatternId) (view view' : View) : Prop where
  redirects : Redirects m q root root'
  inward : ∀ {r r'}, Redirects m q r r' → ps.Linked root r → ps'.Linked root' r' → r' ∈ keyed' →
    r ∈ keyed ∧ ∃ k k', view.get? r = some k ∧ view'.get? r' = some k' ∧
      Scene.Takes ⟨f, ps, watermark⟩ r k ∧ k.Alike (f.EqualBelow watermark) k'
  outward : ∀ {r}, ps.Linked root r → r ∈ keyed → skip m r ∈ keyed'

namespace Alongside

variable {f : Forest s} {watermark b : Nat} {ps ps' : PatternSet s}
  {q m root root' r r' t t' p p' : PatternId} {keyed keyed' : List PatternId} {view view' : View}

theorem takes_iff (h : ps.Wraps ps' q m b) (hr : r < b) (hrr' : Redirects m q r r') {key : Key} :
    Scene.Takes ⟨f, ps', watermark⟩ r' key ↔ Scene.Takes ⟨f, ps, watermark⟩ r key := by
  cases key <;> simp [Scene.Takes, h.isStar_eq hr hrr']

section Bound

variable (h : ps.Wraps ps' q m b)
  (ha : Alongside f watermark ps ps' q m root root' keyed keyed' view view')

include h ha

/-- What is reached where the disjunction is put in is reached through it if need be. -/
theorem reached_skip (hrr' : Redirects m q r r') (hlinked : ps.Linked root r)
    (hlinked' : ps'.Linked root' r') (hr : r ∉ keyed)
    (hreached : r' ∉ keyed' → ps'.Reached keyed' root' r') :
    ps'.Reached keyed' root' (skip m r) := by
  have hout {a'} (haa' : Redirects m q r a') (ha' : ps'.Linked root' a') : a' ∉ keyed' :=
    fun hmem => hr (ha.inward haa' hlinked ha' hmem).1
  have hr' := hreached (hout hrr' hlinked')
  rcases hrr' with rfl | ⟨rfl, rfl⟩
  · exact hr'
  · exact hr'.step h.leads_wrapper (hout (.inl rfl) (hlinked'.step h.leads_wrapper.refers))

variable (hroot : root < b)

include hroot

theorem bound : Scene.Bound ⟨f, ps, watermark⟩ root keyed view := by
  intro r hr hlinked
  obtain ⟨-, k, _, hk, -, htakes, halike⟩ := ha.inward (.inl rfl) hlinked
    (h.linked hroot ha.redirects hlinked) (ha.outward hlinked hr)
  exact ⟨k, hk, htakes, halike.lt_left⟩

theorem bound_wrapped : Scene.Bound ⟨f, ps', watermark⟩ root' keyed' view' := by
  intro r' hr' hlinked'
  obtain ⟨r, hrr', hlinked⟩ := h.exists_linked hroot ha.redirects hlinked'
  obtain ⟨-, k, k', -, hk', htakes, halike⟩ := ha.inward hrr' hlinked hlinked' hr'
  refine ⟨k', hk', (takes_iff h (Nat.lt_of_le_of_lt hlinked.le hroot) hrr').mpr ?_, ?_⟩
  · exact htakes.alike halike
  · exact (Key.Alike.lt_left
      (Scene.alike_symm halike : k'.Alike (Scene.Equal ⟨f, ps, watermark⟩) k))

theorem reached (hr : ps.Reached keyed root r) : ps'.Reached keyed' root' (skip m r) := by
  induction hr with
  | root hnot => exact ha.reached_skip h ha.redirects .refl .refl hnot .root
  | step hp hl hnot ih =>
    obtain ⟨a', haa', hl'⟩ := h.exists_leads (Nat.lt_of_le_of_lt hp.linked.le hroot) hl
    exact ha.reached_skip h haa' (hp.linked.step hl.refers) (ih.linked.step hl'.refers) hnot
      (ih.step hl')

theorem reached_of_reached (hr' : ps'.Reached keyed' root' r') (hrr' : Redirects m q r r')
    (hr : r ∉ keyed) : ps.Reached keyed root r := by
  induction hr' generalizing r with
  | root =>
    obtain rfl := hrr'.unique ha.redirects
    exact .root hr
  | step hp' hl' _ ih =>
    obtain ⟨p, hpp', hp⟩ := h.exists_linked hroot ha.redirects hp'.linked
    rcases hpp' with rfl | ⟨rfl, rfl⟩
    · obtain ⟨a, haa', hl⟩ := h.exists_leads_of_leads (Nat.lt_of_le_of_lt hp.le hroot) hl'
      obtain rfl := hrr'.unique haa'
      exact (ih (.inl rfl) fun hmem => hp'.not_mem (ha.outward hp hmem)).step hl hr
    · obtain rfl := hrr'.unique (.inl (h.eq_of_refers_wrapper hl'.refers))
      exact ih (.inr ⟨rfl, rfl⟩) hr

/-- Behind two links of regions that see all they refer to the searches are alongside each other
again, if both bind what is keyed to keys for which the patterns stand. -/
theorem nested (hclear : (Plan.amid ps keyed root).Clear ps)
    (hclear' : (Plan.amid ps' keyed' root').Clear ps') {i i' : Nat}
    {around around' new new' : List PatternId} {link link' : LinkId} {seed seed' : PatternId}
    {slot slot' : Nat} (sc : (Plan.amid ps keyed root).Scoped ps i around link seed new)
    (hsub : keyed ⊆ around) (hp : p ∈ new) (hguard : ps.Guards p slot t)
    (sc' : (Plan.amid ps' keyed' root').Scoped ps' i' around' link' seed' new')
    (hsub' : keyed' ⊆ around') (hp' : p' ∈ new') (hguard' : ps'.Guards p' slot' t')
    (htt' : Redirects m q t t') {inside inside' : View} {Γ : PatternId → Key → Prop}
    (hΓ : ∀ {r k k'}, Γ r k → Γ r k' → k.Alike (f.EqualBelow watermark) k')
    (htakes : ∀ {r k}, Γ r k → Scene.Takes ⟨f, ps, watermark⟩ r k)
    (hbinds : ∀ r ∈ ((Plan.amid ps keyed root).scope i).keyed, ps.Linked root r →
      ∃ k, inside.get? r = some k ∧ Γ r k)
    (hbinds' : ∀ r' ∈ ((Plan.amid ps' keyed' root').scope i').keyed, ps'.Linked root' r' →
      ∃ k, inside'.get? r' = some k ∧ ∀ r, Redirects m q r r' → Γ r k) :
    Alongside f watermark ps ps' q m t t' ((Plan.amid ps keyed root).scope i).keyed
      ((Plan.amid ps' keyed' root').scope i').keyed inside inside' := by
  have ht : ps.Linked root t := (sc.reached hsub hp).linked.step hguard.refers
  have ht' : ps'.Linked root' t' := (sc'.reached hsub' hp').linked.step hguard'.refers
  constructor
  case redirects => exact htt'
  case inward =>
    intro r r' hrr' hr hr' hmem'
    have hmem : r ∈ ((Plan.amid ps keyed root).scope i).keyed := by
      rw [hclear.mem_keyed_iff sc hp hguard hr]
      rcases (hclear'.mem_keyed_iff sc' hp' hguard' hr').mp hmem' with h' | h'
      · exact .inl (ha.inward hrr' (ht.trans hr) (ht'.trans hr') h').1
      · exact or_iff_not_imp_left.mpr (ha.reached_of_reached h hroot h' hrr')
    obtain ⟨k, hk, hΓk⟩ := hbinds r hmem (ht.trans hr)
    obtain ⟨k', hk', hΓk'⟩ := hbinds' r' hmem' (ht'.trans hr')
    exact ⟨hmem, k, k', hk, hk', htakes hΓk, hΓ hΓk (hΓk' r hrr')⟩
  case outward =>
    intro r hr hmem
    have hr' := h.linked (Nat.lt_of_le_of_lt ht.le hroot) htt' hr
    rw [hclear'.mem_keyed_iff sc' hp' hguard' hr']
    exact ((hclear.mem_keyed_iff sc hp hguard hr).mp hmem).imp (ha.outward (ht.trans hr))
      (ha.reached h hroot)

end Bound

/-! ## Solutions on both sides -/

section Solution

variable (h : ps.Wraps ps' q m b)
  (ha : Alongside f watermark ps ps' q m root root' keyed keyed' view view') (hroot : root < b)
  {F F' : PatternId → Key → Prop} {Holds : (p : PatternId) → List (DecidedLink (Fin p)) → Prop}

/-- What a pattern stands for, the disjunction in its place does too. -/
def Wrapped (ps' : PatternSet s) (q m root' : PatternId) (F : PatternId → Key → Prop)
    (r' : PatternId) (key : Key) : Prop :=
  ps'.Linked root' r' ∧ ∃ r, Redirects m q r r' ∧ F r key

/-- The pattern `r` stands for what it does once the disjunction has been put in. -/
def Unwrapped (ps : PatternSet s) (m root : PatternId) (F' : PatternId → Key → Prop) (r : PatternId)
    (key : Key) : Prop :=
  ps.Linked root r ∧ F' (skip m r) key

/-- A pattern with an evaluator decides on links like some that a pattern of the other set may
decide on. -/
def Carried (f : Forest s) (watermark : Nat) (ps ps' : PatternSet s)
    (T : PatternId → PatternId → Prop) (Holds : (p : PatternId) → List (DecidedLink (Fin p)) → Prop)
    (p' : PatternId) (links' : List (DecidedLink (Fin p'))) : Prop :=
  ∀ e, (ps'.query p').evaluator = some e → ∃ (p : PatternId) (links : List (DecidedLink (Fin p))),
    (ps.query p).evaluator = some e ∧
      LinksAlike (fun a a' => T a.val a'.val) (f.EqualBelow watermark) links links' ∧ Holds p links

include h ha hroot

theorem solution_wrapped (hw' : Scene.WellFormed ⟨f, ps', watermark⟩)
    (hnode : ∀ y < watermark, s.isSubkind (f.kind y) Schema.nodeKind = true)
    (hsol : Scene.Solution ⟨f, ps, watermark⟩ root keyed view F Holds) :
    Scene.Solution ⟨f, ps', watermark⟩ root' keyed' view' (Wrapped ps' q m root' F)
      (Carried f watermark ps ps' (Redirects m q) Holds) := by
  constructor
  case linked => exact fun hF => hF.1
  case takes =>
    rintro r' key ⟨-, r, hrr', hF⟩
    exact (takes_iff h (Nat.lt_of_le_of_lt (hsol.linked hF).le hroot) hrr').mpr (hsol.takes hF)
  case alike =>
    rintro r' key key' ⟨-, r, hrr', hF⟩ ⟨-, r₁, hrr₁, hF₁⟩
    obtain rfl := hrr'.unique hrr₁
    exact hsol.alike hF hF₁
  case respects =>
    rintro r' key key' ⟨hlinked', r, hrr', hF⟩ hkey
    exact ⟨hlinked', r, hrr', hsol.respects hF hkey⟩
  case around =>
    intro r' key hr' hlinked'
    obtain ⟨r, hrr', hlinked⟩ := h.exists_linked hroot ha.redirects hlinked'
    obtain ⟨hr, k, k', hk, hk', -, hkk'⟩ := ha.inward hrr' hlinked hlinked' hr'
    have hF : Wrapped ps' q m root' F r' key ↔ F r key := by
      constructor
      · rintro ⟨-, r₁, hrr₁, hF⟩
        obtain rfl := hrr'.unique hrr₁
        exact hF
      · exact fun hF => ⟨hlinked', r, hrr', hF⟩
    rw [hF, hsol.around hr hlinked, hk, hk']
    simp only [Option.some.injEq, exists_eq_left']
    exact ⟨Scene.alike_trans (Scene.alike_symm hkk'), Scene.alike_trans hkk'⟩
  case decides =>
    rintro r' key hr' ⟨hlinked', r, hrr', hF⟩
    have hlinked : ps.Linked root r := hsol.linked hF
    have hr : r < b := Nat.lt_of_le_of_lt hlinked.le hroot
    rcases hrr' with rfl | ⟨rfl, rfl⟩
    · have hnot : r ∉ keyed := fun hmem => hr' (ha.outward hlinked hmem)
      obtain ⟨links, path, hd, htargets, hholds⟩ := hsol.decides hnot hF
      have hkey : key.Alike (f.EqualBelow watermark) key := hsol.alike hF hF
      obtain ⟨links', path', hd', hlinks⟩ := hd.alike
        (fun a a' haa' => h.isStar_eq (Nat.lt_trans a.isLt hr) haa') (h.kind_pattern hr)
        (h.parallel_pattern hr) hkey
      refine ⟨links', path', hd', fun l' hl' hne' => ?_, fun e he => ?_⟩
      · obtain ⟨l, hl, hll'⟩ := hlinks.exists_left hl'
        exact ⟨hlinked'.step (hd'.leads hw' hl' hne').refers, l.target.val, hll'.target,
          hsol.respects (htargets l hl (hll'.kind_eq ▸ hne')) hll'.key⟩
      · exact ⟨r, links, (h.query hr).2.trans he, hlinks, hholds⟩
    · -- The disjunction itself has its one disjunct to take.
      obtain ⟨t, ht, hagent⟩ := h.exists_agent
      have hkind : (ps'.pattern r').kind = Schema.nodeKind := congrArg Pattern.kind h.wrapper
      have htakes := hsol.takes hF
      cases key with
      | run ordered xs => exact Bool.noConfusion (h.not_isStar.symm.trans htakes)
      | node y =>
        have hy : y < watermark := (hsol.alike hF hF).lt_left y (by simp [Key.nodes])
        refine ⟨[⟨0, t, .normal, .node y⟩], none, ⟨?_, ?_⟩, ?_, ?_⟩
        · exact hkind ▸ hnode y hy
        · rw [hagent]
          exact ⟨0, t, rfl, rfl, rfl⟩
        · intro l hl _
          obtain rfl := List.mem_singleton.mp hl
          exact ⟨ht ▸ hlinked'.step h.leads_wrapper.refers, r, .inl ht, hF⟩
        · intro e he
          rw [h.evaluator_wrapper] at he
          cases he

/-- What stands for a key in the place of a pattern does so because the pattern does. -/
theorem unwrapped_of_redirects
    (hsol : Scene.Solution ⟨f, ps', watermark⟩ root' keyed' view' F' Holds)
    {key : Key} (hrr' : Redirects m q r r') (hF : F' r' key) : Unwrapped ps m root F' r key := by
  have hlinked' : ps'.Linked root' r' := hsol.linked hF
  obtain ⟨r₁, hrr₁, hlinked⟩ := h.exists_linked hroot ha.redirects hlinked'
  obtain rfl := hrr'.unique hrr₁
  refine ⟨hlinked, ?_⟩
  rcases hrr' with rfl | ⟨rfl, rfl⟩
  · exact hF
  · by_cases hr' : r' ∈ keyed'
    · -- Both are bound around the search, to keys equal to that of the pattern on the other side.
      have hskip : ps'.Linked root' (skip r' r) := hlinked'.step h.leads_wrapper.refers
      obtain ⟨hr, k, k', hk, hk', -, hkk'⟩ := ha.inward (.inr ⟨rfl, rfl⟩) hlinked hlinked' hr'
      have hmem := ha.outward hlinked hr
      obtain ⟨-, k₁, k₁', hk₁, hk₁', -, hkk₁'⟩ := ha.inward (.inl rfl) hlinked hskip hmem
      obtain ⟨k₂, hk₂, hkey⟩ := (hsol.around hr' hlinked').mp hF
      obtain rfl := Option.some.inj (hk.symm.trans hk₁)
      obtain rfl := Option.some.inj (hk'.symm.trans hk₂)
      exact (hsol.around hmem hskip).mpr ⟨k₁', hk₁', Scene.alike_trans (Scene.alike_symm hkk₁')
        (Scene.alike_trans hkk' hkey)⟩
    · obtain ⟨t, ht, hagent⟩ := h.exists_agent
      obtain ⟨links, path, hd, htargets, -⟩ := hsol.decides hr' hF
      cases key with
      | run ordered xs =>
        obtain ⟨restriction, hstar, -⟩ := hd
        cases hagent.symm.trans hstar
      | node y =>
        obtain ⟨-, hoffers⟩ := hd
        rw [hagent] at hoffers
        obtain ⟨slot, t', hslot, rfl, -⟩ := hoffers
        obtain rfl : t' = t := List.mem_singleton.mp (List.mem_of_getElem? hslot)
        exact ht ▸ htargets _ List.mem_cons_self (by simp)

theorem solution_unwrapped (hsol : Scene.Solution ⟨f, ps', watermark⟩ root' keyed' view' F' Holds) :
    Scene.Solution ⟨f, ps, watermark⟩ root keyed view (Unwrapped ps m root F')
      (Carried f watermark ps' ps (fun a' a => Redirects m q a a') Holds) := by
  constructor
  case linked => exact fun hF => hF.1
  case takes =>
    rintro r key ⟨hlinked, hF⟩
    exact (takes_iff h (Nat.lt_of_le_of_lt hlinked.le hroot) (.inl rfl)).mp (hsol.takes hF)
  case alike => exact fun hF hF' => hsol.alike hF.2 hF'.2
  case respects => exact fun hF hkey => ⟨hF.1, hsol.respects hF.2 hkey⟩
  case around =>
    intro r key hr hlinked
    have hlinked' := h.linked hroot ha.redirects hlinked
    have hmem := ha.outward hlinked hr
    obtain ⟨-, k, k', hk, hk', -, hkk'⟩ := ha.inward (.inl rfl) hlinked hlinked' hmem
    rw [Unwrapped, and_iff_right hlinked, hsol.around hmem hlinked', hk, hk']
    simp only [Option.some.injEq, exists_eq_left']
    exact ⟨Scene.alike_trans hkk', Scene.alike_trans (Scene.alike_symm hkk')⟩
  case decides =>
    rintro r key hr ⟨hlinked, hF⟩
    have hlt : r < b := Nat.lt_of_le_of_lt hlinked.le hroot
    have hnot : skip m r ∉ keyed' := fun hmem =>
      hr (ha.inward (.inl rfl) hlinked (hsol.linked hF) hmem).1
    obtain ⟨links', path', hd', htargets, hholds⟩ := hsol.decides hnot hF
    have hkey : key.Alike (f.EqualBelow watermark) key := hsol.alike hF hF
    obtain ⟨links, path, hd, hlinks⟩ := hd'.alike
      (fun a' a haa' => (h.isStar_eq (Nat.lt_trans a.isLt hlt) haa').symm) (h.kind_pattern hlt).symm
      (h.parallel_pattern hlt).flip hkey
    refine ⟨links, path, hd, fun l hl hne => ?_, fun e he => ?_⟩
    · obtain ⟨l', hl', hll'⟩ := hlinks.exists_left hl
      exact ha.unwrapped_of_redirects h hroot hsol hll'.target
        (hsol.respects (htargets l' hl' (hll'.kind_eq ▸ hne)) hll'.key)
    · exact ⟨skip m r, links', (h.query hlt).2.symm.trans he, hlinks, hholds⟩

end Solution

/-! ## Regions on both sides -/

/-- A region whose links are like some that are pledged does not fail, if the searches of the two
regions concur. -/
theorem evaluate_ne_false {plan plan' : Plan} {inside inside' : View}
    {inner : Fin root → Plan → Key → View → Except Fault (Option Couplings)}
    {inner' : Fin root' → Plan → Key → View → Except Fault (Option Couplings)}
    {T : PatternId → PatternId → Prop} {pr : Progress root} {region' : Region root'}
    {links' : List (DecidedLink (Fin region'.pattern))} {hle : region'.pattern ≤ root'}
    (hregions : ∀ region ∈ pr.regions, Scene.evaluate plan inside inner region = .ok true)
    (hcarried : Carried f watermark ps ps' T (Scene.Pledged ⟨f, ps, watermark⟩ pr)
      region'.pattern links')
    (he : (ps'.query region'.pattern).evaluator = some region'.evaluator)
    (hlinks : region'.links = (links'.filter fun l => l.kind = .abnormal).map
      (·.map (·.castLE hle)))
    (hconcur : ∀ region ∈ pr.regions, ∀ l ∈ region.links, ∀ l' ∈ region'.links,
      l.Alike (fun a a' => T a.val a'.val) (f.EqualBelow watermark) l' → ∀ nested nested',
      (plan.scope region.scope).nested? region.pattern l.slot = some nested →
      (plan'.scope region'.scope).nested? region'.pattern l'.slot = some nested' →
      Scene.Concur (inner l.target nested l.key inside) (inner' l'.target nested' l'.key inside')) :
    Scene.evaluate plan' inside' inner' region' ≠ .ok false := by
  obtain ⟨p, links, hp, hll', links₀, hl₀l, haside⟩ := hcarried _ he
  -- Either no region was set aside, for want of abnormal links, and there are none here either, or
  -- the one set aside has like links in both directions.
  rcases haside _ hp with ⟨hand, hnone⟩ | ⟨scope, hle₀, hmem⟩
  · have hempty : region'.links = [] := by
      rw [hlinks, List.map_eq_nil_iff, List.filter_eq_nil_iff]
      intro l' hl' habnormal
      obtain ⟨l, hl, hl_l'⟩ := hll'.exists_left hl'
      obtain ⟨l₀, hl₀, hl₀_l⟩ := hl₀l.exists_left hl
      exact hnone l₀ hl₀ ((hl₀_l.kind_eq.trans hl_l'.kind_eq).trans (by simpa using habnormal))
    rw [Scene.evaluate, hempty, hand]
    simp [Scene.allMatch, Except.map, Evaluator.combine]
  · have htrans {l₀ l : DecidedLink (Fin p)} {l' : DecidedLink (Fin region'.pattern)}
        (h₀ : l₀.Alike Eq (f.EqualBelow watermark) l)
        (h : l.Alike (fun a a' => T a.val a'.val) (f.EqualBelow watermark) l') :
        (l₀.map (·.castLE hle₀)).Alike (fun a a' => T a.val a'.val) (f.EqualBelow watermark)
          (l'.map (·.castLE hle)) := by
      have hkey : l₀.key.Alike (Scene.Equal ⟨f, ps, watermark⟩) l'.key :=
        Scene.alike_trans h₀.key h.key
      have htarget : T l₀.target.val l'.target.val := h₀.target ▸ h.target
      exact ⟨h₀.slot_eq.trans h.slot_eq, h₀.kind_eq.trans h.kind_eq, htarget, hkey⟩
    refine Scene.evaluate_ne_false ?_ ?_ ?_ (hconcur _ hmem) (hregions _ hmem)
    · rfl
    · intro l hl
      obtain ⟨l₀, hl₀, rfl⟩ := List.mem_map.mp hl
      obtain ⟨hl₀, habnormal⟩ := List.mem_filter.mp hl₀
      obtain ⟨l₁, hl₁, h₀₁⟩ := hl₀l.exists_right hl₀
      obtain ⟨l', hl', h₁'⟩ := hll'.exists_right hl₁
      refine ⟨_, ?_, htrans h₀₁ h₁'⟩
      rw [hlinks]
      refine List.mem_map_of_mem (List.mem_filter.mpr ⟨hl', ?_⟩)
      rwa [← h₁'.kind_eq, ← h₀₁.kind_eq]
    · intro l' hl'
      rw [hlinks] at hl'
      obtain ⟨l₂, hl₂, rfl⟩ := List.mem_map.mp hl'
      obtain ⟨hl₂, habnormal⟩ := List.mem_filter.mp hl₂
      obtain ⟨l₁, hl₁, h₁'⟩ := hll'.exists_left hl₂
      obtain ⟨l₀, hl₀, h₀₁⟩ := hl₀l.exists_left hl₁
      refine ⟨_, List.mem_map_of_mem (List.mem_filter.mpr ⟨hl₀, ?_⟩), htrans h₀₁ h₁'⟩
      rwa [h₀₁.kind_eq, h₁'.kind_eq]

/-- Searches for `root`, and for what is in its place, concur where they are alongside each other
and no region refers to anything out of its sight. -/
def Transparent (f : Forest s) (watermark : Nat) (ps ps' : PatternSet s) (q m root : PatternId) :
    Prop :=
  ∀ {root' : PatternId} {keyed keyed' : List PatternId} {view view' : View} {x x' : NodeId},
    Alongside f watermark ps ps' q m root root' keyed keyed' view view' →
    (Plan.amid ps keyed root).Clear ps → (Plan.amid ps' keyed' root').Clear ps' →
    ps.isStar root = false → f.EqualBelow watermark x x' →
    Scene.Concur (Scene.searchFor ⟨f, ps, watermark⟩ root (.amid ps keyed root) (.node x) view)
      (Scene.searchFor ⟨f, ps', watermark⟩ root' (.amid ps' keyed' root') (.node x') view')

section Searches

variable (h : ps.Wraps ps' q m b)
  (ha : Alongside f watermark ps ps' q m root root' keyed keyed' view view') (hroot : root < b)
  (hclear : (Plan.amid ps keyed root).Clear ps) (hclear' : (Plan.amid ps' keyed' root').Clear ps')
  (ih : ∀ t < root, Transparent f watermark ps ps' q m t)

include h ha hroot hclear hclear' ih

/-- The searches of two regions concur if the patterns stand for equal keys in both attempts. -/
theorem concur_nested {F F' : PatternId → Key → Prop}
    {Holds Holds' : (p : PatternId) → List (DecidedLink (Fin p)) → Prop}
    (hsol : Scene.Solution ⟨f, ps, watermark⟩ root keyed view F Holds)
    (hsol' : Scene.Solution ⟨f, ps', watermark⟩ root' keyed' view' F' Holds')
    (hFF' : ∀ {r r' key}, Redirects m q r r' → F' r' key → F r key)
    {pr : Progress root} {pr' : Progress root'}
    (hc : Covered ⟨f, ps, watermark⟩ (.amid ps keyed root) (fun around _ => keyed ⊆ around)
      (· ∈ keyed) pr [])
    (hc' : Covered ⟨f, ps', watermark⟩ (.amid ps' keyed' root') (fun around _ => keyed' ⊆ around)
      (· ∈ keyed') pr' [])
    (hcoupled : ∀ r k, pr.couplings.get? r = some k → r ∉ keyed ∧ F r k)
    (hcoupled' : ∀ r k, pr'.couplings.get? r = some k → r ∉ keyed' ∧ F' r k)
    {region : Region root} {region' : Region root'} (hregion : region ∈ pr.regions)
    (hregion' : region' ∈ pr'.regions) {l : DecidedLink (Fin root)} {l' : DecidedLink (Fin root')}
    (hl : l ∈ region.links) (hl' : l' ∈ region'.links)
    (htarget : Redirects m q l.target.val l'.target.val)
    (hkey : l.key.Alike (f.EqualBelow watermark) l'.key) {nested nested' : Plan}
    (hn : ((Plan.amid ps keyed root).scope region.scope).nested? region.pattern l.slot =
      some nested)
    (hn' : ((Plan.amid ps' keyed' root').scope region'.scope).nested? region'.pattern l'.slot =
      some nested') :
    Scene.Concur
      (Scene.searchFor ⟨f, ps, watermark⟩ l.target.val nested l.key (pr.couplings :: view))
      (Scene.searchFor ⟨f, ps', watermark⟩ l'.target.val nested' l'.key
        (pr'.couplings :: view')) := by
  obtain ⟨around, link, seed, new, sc, hsub, hnew, hclaims, hlinks⟩ := hc.regions region hregion
  obtain ⟨around', link', seed', new', sc', hsub', hnew', hclaims', hlinks'⟩ :=
    hc'.regions region' hregion'
  obtain ⟨hguard, hstar, x, hx⟩ := hlinks l hl
  obtain ⟨hguard', -, x', hx'⟩ := hlinks' l' hl'
  obtain rfl := Option.some.inj (hn.symm.trans (sc.nested hnew hguard))
  obtain rfl := Option.some.inj (hn'.symm.trans (sc'.nested hnew' hguard'))
  have hxx' : f.EqualBelow watermark x x' := by
    rw [hx] at hkey
    obtain ⟨y, hy, hxy⟩ := hkey.exists_node
    cases hx'.symm.trans hy
    exact hxy
  rw [hx, hx']
  -- Both targets lie behind links of regions, so that they are searched for with plans of their
  -- own, amid what has been found so far.
  refine ih l.target.val l.target.isLt ?_ (hclear.nested sc.isOpen hn)
    (hclear'.nested sc'.isOpen hn') hstar hxx'
  refine ha.nested h hroot hclear hclear' sc hsub hnew hguard sc' hsub' hnew' hguard' htarget
    (Γ := F) hsol.alike hsol.takes (fun r hr hlinked => ?_) fun r' hr' hlinked' => ?_
  · rw [View.get?_cons]
    exact hsol.exists_get? (ha.bound h hroot) hcoupled hlinked
      ((hclaims r hr).imp_right fun hq => hq.resolve_right (by simp))
  · rw [View.get?_cons]
    obtain ⟨k, hk, hF⟩ := hsol'.exists_get? (ha.bound_wrapped h hroot) hcoupled' hlinked'
      ((hclaims' r' hr').imp_right fun hq => hq.resolve_right (by simp))
    exact ⟨k, hk, fun r hrr' => hFF' hrr' hF⟩

theorem searchFor_wrapped_ne_none (hw : Scene.WellFormed ⟨f, ps, watermark⟩)
    (hw' : Scene.WellFormed ⟨f, ps', watermark⟩)
    (hnode : ∀ y < watermark, s.isSubkind (f.kind y) Schema.nodeKind = true)
    (hstar : ps.isStar root = false) {x x' : NodeId} (hxx' : f.EqualBelow watermark x x')
    {c : Couplings} (hc : Scene.searchFor ⟨f, ps, watermark⟩ root (.amid ps keyed root) (.node x)
      view = .ok (some c)) :
    Scene.searchFor ⟨f, ps', watermark⟩ root' (.amid ps' keyed' root') (.node x') view' ≠
      .ok none := by
  obtain ⟨pr, F, hsol, hF, hcovered, hcoupled, hregions⟩ :=
    Scene.exists_solution_of_searchFor hw hstar hxx'.1 (ha.bound h hroot) hc
  have hsol' := ha.solution_wrapped h hroot hw' hnode hsol
  have hF' : Wrapped ps' q m root' F root' (.node x') :=
    ⟨.refl, root, ha.redirects, hsol.respects hF (.single (.some hxx'))⟩
  have hstar' : ps'.isStar root' = false := (h.isStar_eq hroot ha.redirects).trans hstar
  refine hsol'.searchFor_ne_none hw' hstar' (ha.bound_wrapped h hroot) hF'
    fun pr' hled hcovered' hcoupled' region' hregion' => ?_
  obtain ⟨links', hle, hholds, he, hlinks⟩ := hled.regions region' hregion'
  refine evaluate_ne_false hregions hholds he hlinks
    fun region hregion l hl l' hl' hll' nested nested' =>
    ha.concur_nested h hroot hclear hclear' ih hsol hsol' (fun hrr' hF => ?_) hcovered hcovered'
      hcoupled hcoupled' hregion hregion' hl hl' hll'.target hll'.key
  obtain ⟨-, r, hr, hF⟩ := hF
  obtain rfl := hrr'.unique hr
  exact hF

theorem searchFor_ne_none (hw : Scene.WellFormed ⟨f, ps, watermark⟩)
    (hw' : Scene.WellFormed ⟨f, ps', watermark⟩) (hstar : ps.isStar root = false) {x x' : NodeId}
    (hxx' : f.EqualBelow watermark x x') {c : Couplings}
    (hc : Scene.searchFor ⟨f, ps', watermark⟩ root' (.amid ps' keyed' root') (.node x') view' =
      .ok (some c)) :
    Scene.searchFor ⟨f, ps, watermark⟩ root (.amid ps keyed root) (.node x) view ≠ .ok none := by
  have hstar' : ps'.isStar root' = false := (h.isStar_eq hroot ha.redirects).trans hstar
  obtain ⟨pr', F', hsol', hF', hcovered', hcoupled', hregions⟩ :=
    Scene.exists_solution_of_searchFor hw' hstar' hxx'.symm.1 (ha.bound_wrapped h hroot) hc
  have hsol := ha.solution_unwrapped h hroot hsol'
  have hF : Unwrapped ps m root F' root (.node x) := ha.unwrapped_of_redirects h hroot hsol'
    ha.redirects (hsol'.respects hF' (.single (.some hxx'.symm)))
  refine hsol.searchFor_ne_none hw hstar (ha.bound h hroot) hF
    fun pr hled hcovered hcoupled region hregion => ?_
  obtain ⟨links, hle, hholds, he, hlinks⟩ := hled.regions region hregion
  refine evaluate_ne_false hregions hholds he hlinks
    fun region' hregion' l' hl' l hl hll' nested' nested hn' hn => Scene.Concur.symm ?_
  have hkey : l.key.Alike (Scene.Equal ⟨f, ps, watermark⟩) l'.key := Scene.alike_symm hll'.key
  exact ha.concur_nested h hroot hclear hclear' ih hsol hsol'
    (fun hrr' hF => ha.unwrapped_of_redirects h hroot hsol' hrr' hF) hcovered hcovered' hcoupled
    hcoupled' hregion hregion' hl hl' hll'.target hkey hn hn'

end Searches

theorem transparent (h : ps.Wraps ps' q m b) (hw : Scene.WellFormed ⟨f, ps, watermark⟩)
    (hw' : Scene.WellFormed ⟨f, ps', watermark⟩)
    (hnode : ∀ y < watermark, s.isSubkind (f.kind y) Schema.nodeKind = true) (hroot : root < b) :
    Transparent f watermark ps ps' q m root := by
  induction root using Nat.strongRecOn with
  | ind root ih =>
    intro root' keyed keyed' view view' x x' ha hclear hclear' hstar hxx' c c' hc hc'
    have ih (t) (ht : t < root) : Transparent f watermark ps ps' q m t := ih t ht (ht.trans hroot)
    cases c with
    | none =>
      cases c' with
      | none => rfl
      | some c' =>
        exact (ha.searchFor_ne_none h hroot hclear hclear' ih hw hw' hstar hxx' hc' hc).elim
    | some c =>
      cases c' with
      | none =>
        exact (ha.searchFor_wrapped_ne_none h hroot hclear hclear' ih hw hw' hnode hstar
          hxx' hc hc').elim
      | some c' => rfl

end Alongside

namespace Rule

variable {name name' : String} {patterns patterns' : PatternSet s} {search search' q m : PatternId}
  {replace replace' : Option PatternId} {mode : Mode} {r r' : Rule s}

/-- A disjunction of one is transparent: where references to a pattern become references to a
disjunction of it alone, a rule finds something where it did before, if it comes to an answer.  No
region, with the disjunction or without it, may refer to a pattern that is keyed out of its
sight. -/
theorem isSome_find_eq_of_wraps (hs : s.WellFormed) (hrooted : s.Rooted) (hps : patterns.WellFormed)
    (hps' : patterns'.WellFormed) (hwraps : patterns.Wraps patterns' q m patterns.size)
    (hsize : patterns'.size = patterns.size + 1) (hsearch : Redirects m q search search')
    (hreplace : Option.Rel (Redirects m q) replace replace')
    (hr : Rule.make name patterns search replace mode = .ok r)
    (hr' : Rule.make name' patterns' search' replace' mode = .ok r')
    (hclear : r.plan.search.Clear r.patterns) (hclear' : r'.plan.search.Clear r'.patterns)
    {f : Forest s} (hf : f.WellFormed) {x : NodeId} (hx : x < f.size) {c c' : Option Couplings}
    (hc : r.find f x = .ok c) (hc' : r'.find f x = .ok c') : c.isSome = c'.isSome := by
  obtain ⟨root, hwrap, hplan⟩ := exists_wrap_of_make hr
  obtain ⟨root', hwrap', hplan'⟩ := exists_wrap_of_make hr'
  obtain ⟨hwell, hstar⟩ := hps.wrap hwrap
  obtain ⟨hwell', -⟩ := hps'.wrap hwrap'
  obtain ⟨hwraps, hredirects, hroot⟩ := hwraps.wrap hsize hps hps' hsearch hreplace hwrap hwrap'
  have halongside : Alongside f f.size r.patterns r'.patterns q m root root' [] [] [] [] :=
    ⟨hredirects, by simp, by simp⟩
  have hnode (y) (hy : y < f.size) : s.isSubkind (f.kind y) Schema.nodeKind = true :=
    hrooted.isSubkind_nodeKind (hf.get hy).kind_lt
  rw [find, hplan, RulePlan.search_make] at hc
  rw [find, hplan', RulePlan.search_make] at hc'
  rw [hplan, RulePlan.search_make] at hclear
  rw [hplan', RulePlan.search_make] at hclear'
  exact Alongside.transparent hwraps ⟨hs, hf.wellShaped, hwell⟩ ⟨hs, hf.wellShaped, hwell'⟩ hnode
    hroot halongside hclear hclear' hstar (.refl hx) c c' hc hc'

/-- A list of two different elements. -/
def unlikePair : PatternSet Scene.lists :=
  ((PatternSet.empty.push ⟨0, .standard none []⟩).push ⟨0, .notMatch 0⟩).push
    ⟨1, .standard none [.sequence [0, 1]]⟩

/-- The same with a disjunction around the second element. -/
def unlikePairEither : PatternSet Scene.lists :=
  (((PatternSet.empty.push ⟨0, .standard none []⟩).push ⟨0, .notMatch 0⟩).push
    ⟨0, .matchAny [1]⟩).push ⟨1, .standard none [.sequence [0, 2]]⟩

def matchUnlikePair : Rule Scene.lists where
  name := "unlike"
  patterns := unlikePair.push ⟨0, .overlay 2 2⟩
  search := 2
  replace := none
  mode := .compare
  plan := RulePlan.make (unlikePair.push ⟨0, .overlay 2 2⟩) 3 []

def matchUnlikePairEither : Rule Scene.lists where
  name := "unlike"
  patterns := unlikePairEither.push ⟨0, .overlay 3 3⟩
  search := 3
  replace := none
  mode := .compare
  plan := RulePlan.make (unlikePairEither.push ⟨0, .overlay 3 3⟩) 4 []

theorem wraps_unlikePair : unlikePair.Wraps unlikePairEither 1 2 unlikePair.size := by
  have hskip {a : PatternId} (ha : a < 2) : Redirects 2 1 a a :=
    .inl (PatternSet.skip_of_lt ha).symm
  refine ⟨rfl, rfl, by decide, fun p (hp : p < 3) => ?_⟩
  obtain rfl | rfl | rfl : p = 0 ∨ p = 1 ∨ p = 2 := by omega
  · exact .standard .nil
  · exact .notMatch (hskip (by decide))
  · exact .standard (.cons
      (.sequence (.cons (hskip (by decide)) (.cons (.inr ⟨rfl, rfl⟩) .nil))) .nil)

/-- A plan is clear where its regions look for the first pattern alone and have it keyed in
sight. -/
theorem clear_of_root_eq_zero {ps : PatternSet s} {plan : Plan}
    (h : ∀ scope ∈ plan.scopes, ∀ x ∈ scope.nested, x.2.root = 0 ∧ 0 ∈ scope.keyed ∧
      ∀ scope' ∈ x.2.scopes, scope'.nested.isEmpty = true) : plan.Clear ps := by
  refine Plan.clear_of_scopes fun scope hscope x hx => ?_
  obtain ⟨hroot, hkeyed, hnested⟩ := h scope hscope x hx
  refine ⟨Plan.clear_of_scopes fun scope' hscope' y hy => ?_, fun scope' _ r _ hr => ?_⟩
  · rw [List.isEmpty_iff.mp (hnested scope' hscope')] at hy
    cases hy
  · obtain rfl : r = 0 := Nat.le_zero.mp (hr.le.trans_eq hroot)
    exact hkeyed

theorem wellFormed_unlikePair : unlikePair.WellFormed :=
  ((PatternSet.wellFormed_empty.insert
    (rfl : PatternSet.insert _ 0 (.standard none []) = .ok _)).insert
    (rfl : PatternSet.insert _ 0 (.notMatch 0) = .ok _)).insert
    (rfl : PatternSet.insert _ 1 (.standard none [.sequence [0, 1]]) = .ok _)

theorem wellFormed_unlikePairEither : unlikePairEither.WellFormed :=
  (((PatternSet.wellFormed_empty.insert
    (rfl : PatternSet.insert _ 0 (.standard none []) = .ok _)).insert
    (rfl : PatternSet.insert _ 0 (.notMatch 0) = .ok _)).insert
    (rfl : PatternSet.insert _ 0 (.matchAny [1]) = .ok _)).insert
    (rfl : PatternSet.insert _ 1 (.standard none [.sequence [0, 2]]) = .ok _)

/-- The list and the leaf after it differ, with and without the disjunction. -/
theorem isSome_find_eq_of_wraps_unlikePair :
    matchUnlikePair.find nestedLists 4 =
        .ok (some ⟨[(1, .node 0), (0, .node 3), (2, .node 4), (3, .node 4)], []⟩) ∧
      ∃ c, matchUnlikePairEither.find nestedLists 4 = .ok c ∧ c.isSome = true := by
  have hc : matchUnlikePair.find nestedLists 4 =
      .ok (some ⟨[(1, .node 0), (0, .node 3), (2, .node 4), (3, .node 4)], []⟩) := by decide +kernel
  have hc' : matchUnlikePairEither.find nestedLists 4 =
      .ok (some ⟨[(1, .node 0), (2, .node 0), (0, .node 3), (3, .node 4), (4, .node 4)], []⟩) := by
    decide +kernel
  have hr : Rule.make "unlike" unlikePair 2 none .compare = .ok matchUnlikePair := rfl
  have hr' : Rule.make "unlike" unlikePairEither 3 none .compare = .ok matchUnlikePairEither := rfl
  have hclear : matchUnlikePair.plan.search.Clear matchUnlikePair.patterns :=
    clear_of_root_eq_zero (by decide +kernel)
  have hclear' : matchUnlikePairEither.plan.search.Clear matchUnlikePairEither.patterns :=
    clear_of_root_eq_zero (by decide +kernel)
  refine ⟨hc, _, hc', (isSome_find_eq_of_wraps (Schema.wellFormed_base.define Scene.define_lists)
    (Schema.rooted_base.define Scene.define_lists) wellFormed_unlikePair wellFormed_unlikePairEither
    wraps_unlikePair rfl (.inl rfl) .none hr hr' hclear hclear' wellFormed_nestedLists (by decide)
    hc hc').symm⟩

/-- With the first element inside of the disjunction the region does not see it, and nothing is
found. -/
example :
    (Rule.make "unlike"
      ((((PatternSet.empty.push ⟨0, .standard none []⟩).push ⟨0, .notMatch 0⟩).push
        ⟨0, .matchAny [0]⟩).push ⟨1, .standard none [.sequence [2, 1]]⟩ : PatternSet Scene.lists)
      3 none .compare).map (·.find nestedLists 4) = .ok (.ok none) := by
  decide +kernel

end Rule

end Espalier
