import Espalier.Proofs.Coupling
import Espalier.Proofs.Invariance
import Espalier.Proofs.TreeShaped

/-!
# What makes a search succeed

A search that succeeds leaves behind what each of its patterns stands for: keys that are equal for
one pattern, that agree with what is bound around the search, and on which every pattern decides so
that its links hand on keys of the same sort.  Conversely, whoever knows of such keys can lead an
attempt along them.  It then comes to an end unless a region fails.
-/

namespace Espalier

variable {s : Schema} {root p : PatternId}

namespace Scene

variable {scene : Scene s} {plan : Plan} {keyed : List PatternId} {view : View} {x : NodeId}

/-! ## Equal keys -/

theorem alike_iff {key key' : Key} : key.Alike scene.Equal key' ↔
    key.compare scene.forest key' = .eq ∧ (∀ x ∈ key.nodes, x < scene.watermark) ∧
      ∀ x ∈ key'.nodes, x < scene.watermark := by
  constructor
  · exact fun h => ⟨compare_of_alike h, h.lt_left, (alike_symm h).lt_left⟩
  · rintro ⟨h, hkey, hkey'⟩
    refine (Key.compare_eq_iff_alike.mp h).mono fun x hx y hy hxy => ?_
    exact ⟨hkey x (key.children_member ▸ hx), hkey' y (key'.children_member ▸ hy), hxy⟩

theorem alike_trans {key key' key'' : Key} (h : key.Alike scene.Equal key')
    (h' : key'.Alike scene.Equal key'') : key.Alike scene.Equal key'' := by
  rw [alike_iff] at h h' ⊢
  exact ⟨Key.compare_trans h.1 h'.1, h.2.1, h'.2.2⟩

theorem Takes.alike {key key' : Key} (h : scene.Takes p key) (hkey : key.Alike scene.Equal key') :
    scene.Takes p key' := by
  cases key with
  | node x =>
    obtain ⟨y, rfl, -⟩ := hkey.exists_node
    exact h
  | run ordered xs =>
    obtain ⟨ys, rfl, -⟩ := hkey.exists_run
    exact h

theorem Decides.takes {key : Key} {links : List (DecidedLink (Fin p))} {path : Option (List Site)}
    (h : scene.Decides p key links path) : scene.Takes p key := by
  have hstar := scene.patterns.isStar_pattern p
  cases key with
  | node x =>
    cases hagent : (scene.patterns.pattern p).agent with
    | star restriction =>
      exact (hagent ▸ h.2 : scene.Offers p x (.star restriction) links path).elim
    | _ => exact hstar.symm.trans (by rw [hagent]; rfl)
  | run ordered xs =>
    obtain ⟨restriction, hagent, -⟩ := h
    exact hstar.symm.trans (by rw [hagent]; rfl)

/-! ## What is coupled -/

theorem times_runs (hw : scene.WellFormed) {pr pr' : Progress root} {runs : List (Pending root)}
    {q : PatternId} (hg : (runs.foldlM (scene.keyRun plan) pr).Gives pr') :
    pr'.times plan [] q = pr.times plan runs q := by
  induction runs generalizing pr with
  | nil =>
    obtain rfl := Attempt.gives_foldlM_nil.mp hg
    rfl
  | cons run runs ih =>
    obtain ⟨pr₁, hrun, hrest⟩ := Attempt.gives_foldlM_cons.mp hg
    rw [ih hrest, times_keyRun hw hrun]

/-- What an attempt couples are the patterns of one walk through the plan, whatever its subject
is. -/
theorem exists_walks_of_gives (hw : scene.WellFormed) {subject : Key} {pr pr' : Progress root}
    (hkey : (scene.key (.amid scene.patterns keyed root) root root (Nat.le_refl root) 0 .root
      subject .start).Gives pr)
    (hruns : (pr.pending.foldlM (scene.keyRun (.amid scene.patterns keyed root)) pr).Gives pr') :
    ∃ keys, (Plan.amid scene.patterns keyed root).Walks scene.patterns 0 .root root keys ∧
      ∀ q, (pr'.couplings.get? q).isSome = true ↔ q ∈ keys := by
  rcases (gives_key hw).mp hkey with ⟨hk, rfl⟩ | ⟨-, -, d, -, hd, -⟩
  · obtain rfl := Attempt.gives_foldlM_nil.mp hruns
    exact ⟨[], .residual hk, by simp [Progress.addResidual, Progress.start, Couplings.empty,
      Couplings.get?]⟩
  · obtain ⟨new, sc⟩ := (Plan.entered_amid scene.patterns keyed root).scoped
    obtain ⟨keys, hwalks, htimes⟩ := (keyWalks hw root sc .seed hd.takes).1 pr hkey
    refine ⟨keys, hwalks, fun q => ?_⟩
    have hcount : (pr'.couplings.get? q).isSome.toNat = keys.count q := by
      have htimes' := (times_runs hw hruns).trans (htimes q)
      exact htimes'.trans (Nat.zero_add _)
    rw [← List.count_pos_iff, ← hcount]
    cases (pr'.couplings.get? q).isSome <;> simp

/-- Keyers lead to all that an attempt couples. -/
theorem reaches_of_coupled (hw : scene.WellFormed) {subject : Key} {pr pr' : Progress root}
    (hkey : (scene.key (.amid scene.patterns keyed root) root root (Nat.le_refl root) 0 .root
      subject .start).Gives pr)
    (hruns : (pr.pending.foldlM (scene.keyRun (.amid scene.patterns keyed root)) pr).Gives pr')
    {q : PatternId} (hq : (pr'.couplings.get? q).isSome = true) :
    (Plan.amid scene.patterns keyed root).Reaches scene.patterns 0 .root root q := by
  obtain ⟨new, sc⟩ := (Plan.entered_amid scene.patterns keyed root).scoped
  obtain ⟨keys, hwalks, hkeys⟩ := exists_walks_of_gives hw hkey hruns
  exact hwalks.reaches sc .seed ((hkeys q).mp hq)

theorem not_mem_of_coupled (hw : scene.WellFormed) {subject : Key} {pr pr' : Progress root}
    (hkey : (scene.key (.amid scene.patterns keyed root) root root (Nat.le_refl root) 0 .root
      subject .start).Gives pr)
    (hruns : (pr.pending.foldlM (scene.keyRun (.amid scene.patterns keyed root)) pr).Gives pr')
    {q : PatternId} (hq : (pr'.couplings.get? q).isSome = true) : q ∉ keyed := by
  obtain ⟨new, sc⟩ := (Plan.entered_amid scene.patterns keyed root).scoped
  exact (reaches_of_coupled hw hkey hruns hq).not_mem sc .seed

/-! ## Solutions -/

/-- The keys that the patterns of a search for `root` stand for, where those of `keyed` are bound by
`view`.  The links that a pattern decides on have the property `Holds`. -/
structure Solution (scene : Scene s) (root : PatternId) (keyed : List PatternId) (view : View)
    (F : PatternId → Key → Prop) (Holds : (p : PatternId) → List (DecidedLink (Fin p)) → Prop) :
    Prop where
  linked : ∀ {p key}, F p key → scene.patterns.Linked root p
  takes : ∀ {p key}, F p key → scene.Takes p key
  alike : ∀ {p key key'}, F p key → F p key' → key.Alike scene.Equal key'
  respects : ∀ {p key key'}, F p key → key.Alike scene.Equal key' → F p key'
  around : ∀ {p key}, p ∈ keyed → scene.patterns.Linked root p →
    (F p key ↔ ∃ k, view.get? p = some k ∧ k.Alike scene.Equal key)
  decides : ∀ {p key}, p ∉ keyed → F p key → ∃ links path, scene.Decides p key links path ∧
    (∀ l ∈ links, l.kind ≠ .abnormal → F l.target.val l.key) ∧ Holds p links

/-- The patterns of `keyed` that a search for `root` may come to are bound by `view`, to keys of
their shape. -/
def Bound (scene : Scene s) (root : PatternId) (keyed : List PatternId) (view : View) : Prop :=
  ∀ q ∈ keyed, scene.patterns.Linked root q →
    ∃ k, view.get? q = some k ∧ scene.Takes q k ∧ ∀ x ∈ k.nodes, x < scene.watermark

variable {F : PatternId → Key → Prop} {Holds : (p : PatternId) → List (DecidedLink (Fin p)) → Prop}

/-- What is keyed or coupled is bound to a key of the solution. -/
theorem Solution.exists_get? (hsol : scene.Solution root keyed view F Holds)
    (hbound : scene.Bound root keyed view) {c : Couplings}
    (hc : ∀ q k, c.get? q = some k → q ∉ keyed ∧ F q k) {q : PatternId}
    (hlinked : scene.patterns.Linked root q) (hq : q ∈ keyed ∨ (c.get? q).isSome = true) :
    ∃ k, (c.get? q).or (view.get? q) = some k ∧ F q k := by
  cases hk : c.get? q with
  | some k => exact ⟨k, rfl, (hc q k hk).2⟩
  | none =>
    have hq : q ∈ keyed := by simpa [hk] using hq
    obtain ⟨k, hview, -, hlt⟩ := hbound q hq hlinked
    exact ⟨k, hview, (hsol.around hq hlinked).mpr ⟨k, hview, Key.alike_self hlt⟩⟩

/-! ## The solution of an attempt -/

/-- The pattern `q` stands for `key`, by what binds it around the search or in it. -/
def Found (scene : Scene s) (root : PatternId) (keyed : List PatternId) (view : View)
    (c : Couplings) (q : PatternId) (key : Key) : Prop :=
  scene.patterns.Linked root q ∧
    ∃ k, (if q ∈ keyed then view.get? q else c.get? q) = some k ∧ k.Alike scene.Equal key

/-- The abnormal ones of links like `links` are set aside. -/
def Pledged (scene : Scene s) (pr : Progress root) (q : PatternId)
    (links : List (DecidedLink (Fin q))) : Prop :=
  ∃ links₀, LinksAlike Eq scene.Equal links₀ links ∧
    pr.SetsAside (scene.patterns.query q).evaluator q links₀

theorem found_of_meets {pr : Progress root} (hbound : scene.Bound root keyed view)
    (hresiduals : ∀ r ∈ pr.residuals, view.restrict scene.forest pr.couplings r.1 r.2 = .ok ())
    (hcovered : ∀ r ∈ pr.residuals, r.1 ∈ keyed ∨ (pr.couplings.get? r.1).isSome = true)
    (hcoupled : ∀ q k, pr.couplings.get? q = some k →
      q ∉ keyed ∧ ∀ x ∈ k.nodes, x < scene.watermark)
    {q : PatternId} {key : Key} (hlinked : scene.patterns.Linked root q)
    (hlt : ∀ x ∈ key.nodes, x < scene.watermark) (hq : pr.Meets [] q key) :
    scene.Found root keyed view pr.couplings q key := by
  obtain ⟨k, hk, hcompare⟩ := exists_of_meets hresiduals hq
  refine ⟨hlinked, k, ?_⟩
  cases hget : pr.couplings.get? q with
  | some k' =>
    obtain rfl : k' = k := by simpa [hget] using hk
    obtain ⟨hnot, hlt'⟩ := hcoupled q k' hget
    exact ⟨by rw [if_neg hnot], alike_iff.mpr ⟨hcompare, hlt', hlt⟩⟩
  | none =>
    have hmem : q ∈ keyed := by
      rcases hq with hq | hq | ⟨run, hrun, -⟩
      · rw [hget] at hq
        cases hq
      · simpa [hget] using hcovered _ hq
      · cases hrun
    rw [hget, Option.none_or] at hk
    obtain ⟨k', hk', -, hlt'⟩ := hbound q hmem hlinked
    obtain rfl := Option.some.inj (hk'.symm.trans hk)
    exact ⟨by rw [if_pos hmem, hk], alike_iff.mpr ⟨hcompare, hlt', hlt⟩⟩

/-- An attempt whose residual links hold solves the search, and its root stands for the subject. -/
theorem solution_of_gives (hw : scene.WellFormed) (hstar : scene.patterns.isStar root = false)
    (hx : x < scene.watermark) (hbound : scene.Bound root keyed view) {pr pr' : Progress root}
    (hkey : (scene.key (.amid scene.patterns keyed root) root root (Nat.le_refl root) 0 .root
      (.node x) .start).Gives pr)
    (hruns : (pr.pending.foldlM (scene.keyRun (.amid scene.patterns keyed root)) pr).Gives pr')
    (hresiduals : ∀ r ∈ pr'.residuals, view.restrict scene.forest pr'.couplings r.1 r.2 = .ok ()) :
    scene.Solution root keyed view (scene.Found root keyed view pr'.couplings) (scene.Pledged pr') ∧
      scene.Found root keyed view pr'.couplings root (.node x) ∧
      ∀ q k, pr'.couplings.get? q = some k →
        q ∉ keyed ∧ scene.Found root keyed view pr'.couplings q k := by
  obtain ⟨hroot, hsettled⟩ :=
    settled_attempt hw scene.inherited_lt_watermark (by simpa using hx) hkey hruns
  obtain ⟨hc, -⟩ := covered_attempt hw (handedOn_true _) trivial (Plan.entered_amid _ keyed _) hstar
    hkey hruns
  have hcovered (r) (hr : r ∈ pr'.residuals) :
      r.1 ∈ keyed ∨ (pr'.couplings.get? r.1).isSome = true :=
    (hc.residuals r hr).1.imp_right fun h => h.resolve_right (by simp)
  have hcoupled (q k) (hq : pr'.couplings.get? q = some k) :
      q ∉ keyed ∧ ∀ x ∈ k.nodes, x < scene.watermark :=
    ⟨not_mem_of_coupled hw hkey hruns (by rw [hq]; rfl), (hsettled q k hq).1⟩
  have hmeets {q key} (hlinked : scene.patterns.Linked root q)
      (hlt : ∀ x ∈ key.nodes, x < scene.watermark) (hq : pr'.Meets [] q key) :
      scene.Found root keyed view pr'.couplings q key :=
    found_of_meets hbound hresiduals hcovered hcoupled hlinked hlt hq
  refine ⟨?_, hmeets .refl (by simpa using hx) hroot, fun q k hq => ?_⟩
  case refine_2 =>
    obtain ⟨hnot, hlt⟩ := hcoupled q k hq
    have hreaches := reaches_of_coupled hw hkey hruns (by rw [hq]; rfl)
    exact ⟨hnot, hmeets hreaches.linked hlt (.inl hq)⟩
  constructor
  case linked => exact fun h => h.1
  case takes =>
    rintro q key ⟨hlinked, k, hk, hkey⟩
    split at hk
    next hq =>
      obtain ⟨k', hk', htakes, -⟩ := hbound q hq hlinked
      obtain rfl := Option.some.inj (hk'.symm.trans hk)
      exact htakes.alike hkey
    next =>
      obtain ⟨-, links, ⟨path, hd, -⟩, -⟩ := hsettled q k hk
      exact hd.takes.alike hkey
  case alike =>
    rintro q key key' ⟨-, k, hk, hkey⟩ ⟨-, k', hk', hkey'⟩
    obtain rfl := Option.some.inj (hk.symm.trans hk')
    exact alike_trans (alike_symm hkey) hkey'
  case respects =>
    rintro q key key' ⟨hlinked, k, hk, hkey⟩ hkey'
    exact ⟨hlinked, k, hk, alike_trans hkey hkey'⟩
  case around =>
    intro q key hq hlinked
    rw [Found, if_pos hq, and_iff_right hlinked]
  case decides =>
    -- The search has settled `q` for its own key `k`; what it decided on there is carried over to
    -- the equal `key`.
    rintro q key hq ⟨hlinked, k, hk, hkey⟩
    rw [if_neg hq] at hk
    obtain ⟨hlt, links₀, ⟨path, hd, -, hmeet⟩, haside⟩ := hsettled q k hk
    obtain ⟨links, path', hd', halike⟩ := hd.exists_alike hkey
    refine ⟨links, path', hd', fun l hl hne => ?_, links₀, halike, haside⟩
    obtain ⟨l₀, hl₀, hll⟩ := halike.exists_left hl
    have hne₀ : l₀.kind ≠ .abnormal := hll.kind_eq ▸ hne
    have hfound := hmeets (hlinked.step (hd.leads hw hl₀ hne₀).refers) (hd.lt_watermark hlt hl₀)
      (hmeet l₀ hl₀ hne₀)
    obtain ⟨hlinked', k', hk', hkey'⟩ := hll.target ▸ hfound
    exact ⟨hlinked', k', hk', alike_trans hkey' hll.key⟩

/-- What is keyed around a search stays so in all of its scopes and regions. -/
theorem handedOn_subset (ps : PatternSet s) (keyed : List PatternId) :
    HandedOn ps fun keyed' _ => keyed ⊆ keyed' := by
  intro plan i keyed' link seed new p slot q sc hsub _ _
  rw [sc.keyed_eq]
  exact List.Subset.trans hsub (List.subset_append_left keyed' new)

/-- A search that succeeds has a solution, whose keys it couples and whose regions are satisfied. -/
theorem exists_solution_of_searchFor (hw : scene.WellFormed)
    (hstar : scene.patterns.isStar root = false) (hx : x < scene.watermark)
    (hbound : scene.Bound root keyed view) {c : Couplings}
    (h : scene.searchFor root (.amid scene.patterns keyed root) (.node x) view = .ok (some c)) :
    ∃ (pr : Progress root) (F : PatternId → Key → Prop),
      scene.Solution root keyed view F (scene.Pledged pr) ∧ F root (.node x) ∧
      Covered scene (.amid scene.patterns keyed root) (fun keyed' _ => keyed ⊆ keyed')
        (· ∈ keyed) pr [] ∧
      (∀ q k, pr.couplings.get? q = some k → q ∉ keyed ∧ F q k) ∧
      ∀ region ∈ pr.regions, evaluate (.amid scene.patterns keyed root) (pr.couplings :: view)
        (fun q nested key view => scene.searchFor q.val nested key view) region = .ok true := by
  rw [searchFor] at h
  obtain ⟨pr, pr', hkey, hrestrict, -⟩ := gives_attempt.mp (Walk.gives_of_solve_eq_some h)
  obtain ⟨hruns, hresiduals, hregions⟩ := gives_restrict.mp hrestrict
  obtain ⟨hsol, hroot, hcoupled⟩ := solution_of_gives hw hstar hx hbound hkey hruns hresiduals
  have hands : HandedOn scene.patterns fun keyed' _ => keyed ⊆ keyed' := handedOn_subset _ keyed
  obtain ⟨hc, -⟩ := covered_attempt hw hands (fun _ => id) (Plan.entered_amid _ keyed _)
    hstar hkey hruns
  exact ⟨pr', _, hsol, hroot, hc, hcoupled, hregions⟩

/-! ## Attempts that are led by a solution -/

/-- All that an attempt has come to belongs to a solution; the runs of `rest` are still to come. -/
structure Led (scene : Scene s) (F : PatternId → Key → Prop)
    (Holds : (p : PatternId) → List (DecidedLink (Fin p)) → Prop) (pr : Progress root)
    (rest : List (Pending root)) : Prop where
  couplings : ∀ q k, pr.couplings.get? q = some k → F q k
  residuals : ∀ r ∈ pr.residuals, F r.1 r.2
  runs : ∀ run ∈ rest, F run.target.val run.key
  regions : ∀ region ∈ pr.regions,
    ∃ (links : List (DecidedLink (Fin region.pattern))) (h : region.pattern ≤ root),
      Holds region.pattern links ∧
      (scene.patterns.query region.pattern).evaluator = some region.evaluator ∧
      region.links = (links.filter fun l => l.kind = .abnormal).map (·.map (·.castLE h))

namespace Led

variable {pr : Progress root} {rest : List (Pending root)}

theorem start : scene.Led F Holds (.start : Progress root) [] :=
  ⟨fun _ _ h => (Option.some_ne_none _ h.symm).elim, by simp [Progress.start], by simp,
    by simp [Progress.start]⟩

theorem addResidual (h : scene.Led F Holds pr rest) {q : PatternId} {key : Key} (hq : F q key) :
    scene.Led F Holds (pr.addResidual q key) rest where
  __ := h
  residuals r hr := by
    rcases List.mem_append.mp hr with hr | hr
    · exact h.residuals r hr
    · obtain rfl := List.mem_singleton.mp hr
      exact hq

theorem addPending (h : scene.Led F Holds pr rest) {run : Pending root}
    (hrun : F run.target.val run.key) : scene.Led F Holds (pr.addPending run) (rest ++ [run]) where
  __ := h
  runs run' hrun' := by
    rcases List.mem_append.mp hrun' with hrun' | hrun'
    · exact h.runs run' hrun'
    · obtain rfl := List.mem_singleton.mp hrun'
      exact hrun

theorem coupled (h : scene.Led F Holds pr rest) {q : PatternId} {key : Key} (hq : F q key)
    (path : Option (List Site)) :
    scene.Led F Holds ((pr.coupled q key).recordPath q path) rest where
  couplings q' k hk := by
    rw [Progress.get?_recordPath, Progress.get?_coupled] at hk
    split at hk
    next heq =>
      cases hk
      exact heq ▸ hq
    next => exact h.couplings q' k hk
  residuals := by simpa using h.residuals
  runs := h.runs
  regions := by simpa using h.regions

theorem addRegion (h : scene.Led F Holds pr rest) (scope : Nat) {evaluator : Evaluator}
    (hle : p ≤ root) {links : List (DecidedLink (Fin p))} (hholds : Holds p links)
    (he : (scene.patterns.query p).evaluator = some evaluator) :
    scene.Led F Holds (pr.addRegion ⟨scope, p, evaluator,
      (links.filter fun l => l.kind = .abnormal).map (·.map (·.castLE hle))⟩) rest where
  __ := h
  regions region hregion := by
    rcases List.mem_append.mp hregion with hregion | hregion
    · exact h.regions region hregion
    · obtain rfl := List.mem_singleton.mp hregion
      exact ⟨links, hle, hholds, he, rfl⟩

end Led

/-- From a pattern that stands for the subject, the first pass can be led to an end. -/
def KeyLed (scene : Scene s) (plan : Plan) (keyed : List PatternId) (F : PatternId → Key → Prop)
    (Holds : (p : PatternId) → List (DecidedLink (Fin p)) → Prop) (root p : PatternId) : Prop :=
  ∀ {h : p ≤ root} {i : Nat} {keyed' new : List PatternId} {entry link : LinkId} {seed : PatternId}
    {subject : Key} {pr : Progress root}, plan.Scoped scene.patterns i keyed' entry seed new →
    keyed ⊆ keyed' → Considered scene.patterns new entry seed link p → F p subject →
    scene.Led F Holds pr pr.pending →
    (scene.key plan root p h i link subject pr).Ends fun pr' => scene.Led F Holds pr' pr'.pending

theorem ends_couple {pr : Progress root} {q : PatternId} {key : Key} :
    (pr.couple q key).Ends (· = pr.coupled q key) := by
  by_cases hq : (pr.couplings.get? q).isSome = true
  · exact .inr ⟨_, faults_couple.mpr ⟨hq, rfl⟩⟩
  · exact .inl ⟨_, gives_couple.mpr ⟨Option.not_isSome_iff_eq_none.mp hq, rfl⟩, rfl⟩

theorem ends_follow (hw : scene.WellFormed) (ih : ∀ q < p, scene.KeyLed plan keyed F Holds root q)
    {h : p ≤ root} {i : Nat} {keyed' new : List PatternId} {entry : LinkId} {seed : PatternId}
    {subject : Key} {links : List (DecidedLink (Fin p))} {path : Option (List Site)}
    (sc : plan.Scoped scene.patterns i keyed' entry seed new) (hsub : keyed ⊆ keyed') (hp : p ∈ new)
    (hd : scene.Decides p subject links path) {l : DecidedLink (Fin p)} (hl : l ∈ links)
    (htarget : l.kind ≠ .abnormal → F l.target.val l.key) {pr : Progress root}
    (hled : scene.Led F Holds pr pr.pending) :
    (scene.follow plan h i pr l).Ends fun pr' => scene.Led F Holds pr' pr'.pending := by
  rw [follow]
  cases hk : l.kind with
  | normal =>
    have hne : l.kind ≠ .abnormal := by simp [hk]
    obtain ⟨_, _, _, _, sc', hl', hsub'⟩ := sc.exists_next hp (hd.leads hw hl hne)
    exact ih _ l.target.isLt sc' (List.Subset.trans hsub hsub') hl' (htarget hne) hled
  | multiplicity =>
    exact .inl ⟨_, Attempt.gives_pure.mpr rfl, hled.addPending (htarget (by simp [hk]))⟩
  | abnormal => exact .inl ⟨_, Attempt.gives_pure.mpr rfl, hled⟩

theorem keyLed (hw : scene.WellFormed) (hsol : scene.Solution root keyed view F Holds)
    (p : PatternId) : scene.KeyLed plan keyed F Holds root p := by
  induction p using Nat.strongRecOn with
  | ind p ih =>
    intro h i keyed' new entry link seed subject pr sc hsub hlink hp hled
    cases hk : (plan.scope i).isKeyer link with
    | false =>
      rw [key_of_not_isKeyer hk]
      exact .inl ⟨_, Attempt.gives_pure.mpr rfl, hled.addResidual hp⟩
    | true =>
      have hnew := sc.mem_of_isKeyer hlink hk
      obtain ⟨links, path, hd, htargets, hholds⟩ :=
        hsol.decides (fun hmem => sc.fresh p hnew (hsub hmem)) hp
      let d : Decided (Fin p) := ⟨links, (scene.patterns.query p).evaluator, path⟩
      have hdecide : (scene.decide p subject).Gives d := (gives_decide hw).mpr ⟨hd, rfl⟩
      rw [key_of_isKeyer hk]
      refine Attempt.ends_bind ends_couple ?_
      rintro _ - rfl
      refine Attempt.ends_bind (P := (· = d)) (.inl ⟨d, hdecide, rfl⟩) ?_
      rintro _ - rfl
      refine Attempt.ends_bind (Attempt.ends_foldlM (by simpa using hled.coupled hp path)
        fun l hl pr hled => ends_follow hw ih sc hsub hnew hd hl (htargets l hl) hled)
        fun pr₁ _ hled₁ => .inl ⟨_, Attempt.gives_pure.mpr rfl, ?_⟩
      dsimp only
      rw [Progress.pending_close]
      rcases pr₁.close_eq h i d with ⟨heq, -⟩ | ⟨evaluator, he, heq⟩
      · rw [heq]
        exact hled₁
      · rw [heq]
        exact hled₁.addRegion i h hholds he

/-- The runs can be led to an end, too. -/
theorem ends_led_runs (hw : scene.WellFormed) (hsol : scene.Solution root keyed view F Holds)
    {around : PatternId → Prop} {pr : Progress root} {runs : List (Pending root)}
    (hc : Covered scene plan (fun keyed' _ => keyed ⊆ keyed') around pr runs)
    (hled : scene.Led F Holds pr runs) :
    (runs.foldlM (scene.keyRun plan) pr).Ends fun pr' => scene.Led F Holds pr' [] := by
  induction runs generalizing pr with
  | nil => exact .inl ⟨pr, Attempt.gives_foldlM_nil.mpr rfl, hled⟩
  | cons run runs ih =>
    rw [List.foldlM_cons]
    refine Attempt.ends_bind (P := fun pr₁ => scene.Led F Holds pr₁ runs) ?_
      fun pr₁ hg hled₁ => ih (covered_keyRun hw hc hg).1 hled₁
    have hrest : scene.Led F Holds pr runs :=
      { hled with runs := fun run' hrun' => hled.runs run' (List.mem_cons_of_mem _ hrun') }
    have hrun := hled.runs run List.mem_cons_self
    obtain ⟨hstar, -, keyed', link, seed, new, sc, hsub, hlink, -⟩ := hc.runs run List.mem_cons_self
    cases hk : (plan.scope run.scope).isKeyer run.link with
    | false =>
      rw [keyRun, hk]
      exact .inl ⟨_, Attempt.gives_pure.mpr rfl, hrest.addResidual hrun⟩
    | true =>
      have hnew := sc.mem_of_isKeyer hlink hk
      obtain ⟨links, path, hd, -, hholds⟩ :=
        hsol.decides (fun hmem => sc.fresh _ hnew (hsub hmem)) hrun
      let d : Decided (Fin run.target.val) :=
        ⟨links, (scene.patterns.query run.target.val).evaluator, path⟩
      have hdecide : (scene.decide run.target.val run.key).Gives d :=
        (gives_decide hw).mpr ⟨hd, rfl⟩
      -- A star links to its restriction only, so that its region has all of its links.
      have hall : links.filter (fun l => l.kind = .abnormal) = links :=
        List.filter_eq_self.mpr (by simpa using (hd.abnormal_of_isStar hstar).2)
      rw [keyRun_of_isKeyer hk]
      refine Attempt.ends_bind ends_couple ?_
      rintro _ - rfl
      refine Attempt.ends_bind (P := (· = d)) (.inl ⟨d, hdecide, rfl⟩) ?_
      rintro _ - rfl
      refine .inl ⟨_, Attempt.gives_pure.mpr rfl, ?_⟩
      have hcoupled : scene.Led F Holds (pr.coupled run.target.val run.key) runs :=
        hrest.coupled hrun none
      rw [Progress.closeRun]
      dsimp only [d]
      cases he : (scene.patterns.query run.target.val).evaluator with
      | none => exact hcoupled
      | some evaluator =>
        have hregion := hcoupled.addRegion run.scope run.target_le hholds he
        rwa [hall] at hregion

/-- With a solution at hand a search does not fail, if no region does. -/
theorem Solution.searchFor_ne_none (hw : scene.WellFormed)
    (hsol : scene.Solution root keyed view F Holds)
    (hstar : scene.patterns.isStar root = false) (hbound : scene.Bound root keyed view)
    (hroot : F root (.node x)) (hregions : ∀ pr : Progress root, scene.Led F Holds pr [] →
      Covered scene (.amid scene.patterns keyed root) (fun keyed' _ => keyed ⊆ keyed')
        (· ∈ keyed) pr [] →
      (∀ q k, pr.couplings.get? q = some k → q ∉ keyed ∧ F q k) → ∀ region ∈ pr.regions,
      evaluate (.amid scene.patterns keyed root) (pr.couplings :: view)
        (fun q nested key view => scene.searchFor q.val nested key view) region ≠ .ok false) :
    scene.searchFor root (.amid scene.patterns keyed root) (.node x) view ≠ .ok none := by
  rw [searchFor]
  refine fun hnone => Walk.not_ends_of_solve_eq_none (Q := fun _ => True) hnone ?_
  have hands : HandedOn scene.patterns fun keyed' _ => keyed ⊆ keyed' := handedOn_subset _ keyed
  obtain ⟨new, sc⟩ := (Plan.entered_amid scene.patterns keyed root).scoped
  have htakes : scene.Takes root (.node x) := hstar
  rcases keyLed hw hsol root sc (fun _ => id) .seed hroot .start with ⟨pr, hkey, hled⟩ | ⟨e, hf⟩
  · obtain ⟨hc, -⟩ := keyCovers hw hands root sc (fun _ => id) .seed (fun q => id)
      htakes .start hkey
    rcases ends_led_runs hw hsol hc hled with ⟨pr', hruns, hled'⟩ | ⟨e, hf⟩
    · obtain ⟨hc', -⟩ := covered_attempt hw hands (fun _ => id) (Plan.entered_amid _ keyed _) hstar
        hkey hruns
      have hcoupled (q k) (hq : pr'.couplings.get? q = some k) : q ∉ keyed ∧ F q k :=
        ⟨not_mem_of_coupled hw hkey hruns (by rw [hq]; rfl), hled'.couplings q k hq⟩
      refine ends_attempt_of_gives hkey hruns (fun r hr => ?_) (hregions pr' hled' hc' hcoupled)
      have hcovered := (hc'.residuals r hr).1.imp_right fun h => h.resolve_right (by simp)
      have hfound := hled'.residuals r hr
      obtain ⟨k, hk, hF⟩ := hsol.exists_get? hbound hcoupled (hsol.linked hfound) hcovered
      rw [View.restrict, hk]
      exact if_pos (compare_of_alike (hsol.alike hF hfound))
    · exact .inr ⟨e, faults_attempt.mpr (.inr ⟨pr, hkey, faults_restrict_of_runs hf⟩)⟩
  · exact .inr ⟨e, faults_attempt.mpr (.inl hf)⟩

end Scene

end Espalier
