import Espalier.Proofs.Embedding
import Espalier.Proofs.Reproduction

/-!
# To search is to compare at one site after the other

A rule that searches has one pattern above the root of the rule that compares: it chooses a site of
the subject, in preorder, and hands it down.  Every choice below is made again for each site before
the next one is tried, so that the search finds what the comparison finds at the first site where
that comes to anything.
-/

namespace Espalier

variable {s : Schema}

/-! ## The plan of a pattern for any site -/

section Plan

variable {ps ps' : PatternSet s} {n : Nat}

/-- Links are renamed as the root of a search is put below the pattern `n + 1`. -/
def RootBelow (n : Nat) (l l' : LinkId) : Prop :=
  l = .root ∧ l' = .child (n + 1) 0 ∨ ∃ p slot, p < n + 1 ∧ l = .child p slot ∧ l' = .child p slot

theorem relabels_rootBelow (n : Nat) : Relabels (n + 1) (RootBelow n) where
  unique := by
    rintro l l' k k' (⟨rfl, rfl⟩ | ⟨p, slot, hp, rfl, rfl⟩) (⟨rfl, rfl⟩ | ⟨q, slot', hq, rfl, rfl⟩)
    · simp
    · simp [Nat.ne_of_gt hq]
    · simp [Nat.ne_of_lt hp]
    · rfl
  child {p} slot hp := .inr ⟨p, slot, hp, rfl, rfl⟩

/-- A pattern for any site is keyed first, and then the pattern that it looks for. -/
theorem Election.run_stuff {p : PatternId} {t : Fin p}
    (hagent : (ps.pattern p).agent = .stuff t none) (link : LinkId) :
    Election.run ps [] link p =
      Election.levels ps p (Nat.le_succ p) [(.child p 0, t)] ⟨[link], [p], [], []⟩ := by
  have hdisjunction : (ps.get p).agent.isDisjunction = false := by
    rw [← PatternSet.isDisjunction_pattern, hagent]
    rfl
  have hquery : (ps.query p).links = [⟨0, t, .normal⟩] := by
    rw [PatternSet.query, hagent]
    rfl
  rw [run, levels, level, if_neg List.not_mem_nil, hdisjunction, hquery]
  rfl

theorem agree_amid_stuff (hps : ps.AgreeBelow (n + 1) ps') {t : Fin (n + 1)} (ht : t.val = n)
    (hagent : (ps'.pattern (n + 1)).agent = .stuff t none) :
    (Plan.amid ps [] n).Agree (n + 1) (RootBelow n) ps ps' (.amid ps' [] (n + 1)) := by
  have hΛ := relabels_rootBelow n
  have hstart : Election.Agree (n + 1) (RootBelow n) (⟨[], [], [], []⟩ : Election n)
      (⟨[.root], [n + 1], [], []⟩ : Election (n + 1)) := by
    refine ⟨?_, ?_, .nil, .nil⟩
    · rintro l l' (⟨rfl, rfl⟩ | ⟨p, slot, hp, rfl, rfl⟩) <;> simp
    · intro q hq
      simp [Nat.ne_of_lt hq]
  have he : Election.Agree (n + 1) (RootBelow n) (Election.run ps [] .root n)
      (Election.run ps' [] .root (n + 1)) := by
    rw [Election.run_stuff hagent]
    refine hstart.levels hps hΛ _ _ (.cons ⟨.inl ⟨rfl, rfl⟩, ?_, Nat.lt_succ_self n⟩ .nil)
    exact Fin.ext ht.symm
  apply Plan.agree_of_forall₂
  change List.Forall₂ _ (Plan.fill ps [] .root n 0) (Plan.fill ps' [] .root (n + 1) 0)
  rw [Plan.fill_eq_laid, Plan.fill_eq_laid]
  refine Plan.laid_agree he 0 fun o _ o' i ho => ?_
  rw [ho.pattern_eq, ho.slot_eq, ho.target_eq]
  exact Plan.fill_agree hps hΛ he.keyed (hΛ.child _ ho.pattern_lt) ho.target_lt i

end Plan

/-! ## Site by site -/

namespace Scene

variable {f : Forest s} {ps ps' : PatternSet s} {watermark n : Nat} {x : NodeId}

/-- A pattern for any site decides on the sites in preorder. -/
theorem leaves_decide_stuff {scene : Scene s} {p : PatternId} {t : Fin p}
    (hagent : (scene.patterns.pattern p).agent = .stuff t none)
    (hkind : s.isSubkind (scene.forest.kind x) (scene.patterns.pattern p).kind = true) :
    Walk.leaves (scene.decide p (.node x)) =
      (List.range (scene.forest.preorder x).size).flatMap fun i =>
        ((scene.forest.preorder x)[i]?).toList.map fun site =>
          .ok ⟨[⟨0, t, .normal, .node site.node⟩], some .and,
            some (pathTo (scene.forest.preorder x) i)⟩ := by
  have hpos : 0 < (scene.forest.preorder x).size :=
    (Array.getElem?_eq_some_iff.mp Forest.preorder_zero).1
  have hquery : (scene.patterns.query p).evaluator = some .and := by
    rw [PatternSet.query, hagent]
    rfl
  have hnode : scene.decideLinks p (.node x) =
      (Attempt.choose 0 (scene.forest.preorder x).size >>= fun i =>
        ((scene.forest.preorder x)[i]?).elim (Attempt.mismatch .size) fun site =>
          pure ([⟨0, t, .normal, .node site.node⟩],
            some (pathTo (scene.forest.preorder x) i))) := by
    simp only [decideLinks, decideNode, stuffLinks, hagent, if_pos hkind]
    refine bind_congr fun i => ?_
    cases (scene.forest.preorder x)[i]? <;> rfl
  rw [decide_eq, Walk.leaves_padTo, hquery, hnode, Attempt.leaves_bind_assoc, Attempt.leaves_bind,
    Attempt.leaves_choose_zero hpos, List.flatMap_map]
  refine List.flatMap_congr fun i hi => ?_
  have hi : i < (scene.forest.preorder x).size := List.mem_range.mp hi
  dsimp only
  rw [Array.getElem?_eq_getElem hi]
  rfl

/-- An attempt whose root has made its decision. -/
def attemptFrom (scene : Scene s) (plan : Plan) (root : PatternId) (subject : Key) (view : View)
    (inner : Fin root → Plan → Key → View → Except Fault (Option Couplings))
    (d : Decided (Fin root)) :
    Attempt Couplings := do
  let pr ← d.links.foldlM (scene.follow plan (Nat.le_refl root) 0)
    ((Progress.start.coupled root subject).recordPath root d.path)
  let pr ← scene.restrict plan view inner (pr.close (Nat.le_refl root) 0 d)
  return pr.couplings

theorem leaves_attempt {scene : Scene s} {plan : Plan} {root : PatternId} {subject : Key}
    {view : View} {inner : Fin root → Plan → Key → View → Except Fault (Option Couplings)}
    (hk : (plan.scope 0).isKeyer .root = true) :
    Walk.leaves (scene.attempt plan root subject view inner) =
      Walk.leaves (scene.decide root subject >>= scene.attemptFrom plan root subject view inner :
        Attempt Couplings) := by
  rw [attempt, key_of_isKeyer hk]
  refine (Attempt.leaves_bind_assoc _ _ _).trans ?_
  refine (Attempt.leaves_bind_assoc (scene.decide root subject) _ _).trans ?_
  exact Attempt.leaves_bind_congr _ fun d => Attempt.leaves_bind_assoc _ _ _

/-- What is coupled above a search at the site `i` of the subject. -/
def above (f : Forest s) (x : NodeId) (n i : Nat) : Couplings :=
  ⟨[(n + 1, .node x)], [(n + 1, pathTo (f.preorder x) i)]⟩

theorem isKeyer_root (ps : PatternSet s) (root : PatternId) :
    ((Plan.amid ps [] root).scope 0).isKeyer .root = true := by
  obtain ⟨new, sc⟩ := (Plan.entered_amid ps [] root).scoped
  have hmem : root ∈ new := by
    have hkeyed := sc.closed .seed
    rwa [sc.keyed_eq, List.nil_append] at hkeyed
  obtain ⟨l, hk, hl⟩ := sc.exists_keyer hmem
  cases hl with
  | seed => exact hk
  | child hp _ hlead => exact absurd hlead.lt (Nat.not_lt.mpr (sc.le_seed _ hp))

/-- From the choice of a site on, a search for any site is a search at that site. -/
theorem mirrors_attemptFrom (hps : ps.AgreeBelow (n + 1) ps') {t : Fin (n + 1)} (ht : t.val = n)
    (hagent : (ps'.pattern (n + 1)).agent = .stuff t none) (i : Nat) (y : NodeId) :
    Attempt.Mirrors (Couplings.Agree (above f x n i))
      (attempt ⟨f, ps, watermark⟩ (.amid ps [] n) n (.node y) [] fun q nested key view =>
        searchFor ⟨f, ps, watermark⟩ q.val nested key view)
      (attemptFrom ⟨f, ps', watermark⟩ (.amid ps' [] (n + 1)) (n + 1) (.node x) []
        (fun q nested key view => searchFor ⟨f, ps', watermark⟩ q.val nested key view)
        ⟨[⟨0, t, .normal, .node y⟩], some .and, some (pathTo (f.preorder x) i)⟩) := by
  have hplan := agree_amid_stuff hps ht hagent
  have hΛ := relabels_rootBelow n
  have hmore : ∀ q < n + 1, (above f x n i).get? q = none := by
    intro q hq
    simp [above, Couplings.get?, Nat.ne_of_lt hq]
  have hstart : Progress.Agree (n + 1) (above f x n i) (Progress.start : Progress n)
      (((Progress.start : Progress (n + 1)).coupled (n + 1) (.node x)).recordPath (n + 1)
        (some (pathTo (f.preorder x) i))) :=
    ⟨⟨rfl, rfl⟩, rfl, by simp [Progress.start], .nil, .nil⟩
  have hinner : InnerAgree (n + 1) ps ps'
      (fun (q : Fin n) nested key view => searchFor ⟨f, ps, watermark⟩ q.val nested key view)
      (fun (q : Fin (n + 1)) nested key view =>
        searchFor ⟨f, ps', watermark⟩ q.val nested key view) := by
    intro t t' plan plan' key view view' ht hlt hplan hview
    dsimp only
    rw [ht]
    exact searchFor_eq hps hlt hplan hview
  have hfollow : Attempt.Mirrors (Progress.Agree (n + 1) (above f x n i))
      (key ⟨f, ps, watermark⟩ (.amid ps [] n) n n (Nat.le_refl n) 0 .root (.node y) .start)
      ([⟨0, t, .normal, .node y⟩].foldlM (follow ⟨f, ps', watermark⟩ (.amid ps' [] (n + 1))
        (Nat.le_refl (n + 1)) 0)
        ((Progress.start.coupled (n + 1) (.node x)).recordPath (n + 1)
          (some (pathTo (f.preorder x) i)))) := by
    obtain rfl : t = Fin.last n := Fin.ext ht
    obtain ⟨new, sc⟩ := (Plan.entered_amid ps' [] (n + 1)).scoped
    have hdisjunction : ps'.isDisjunction (n + 1) = false := by
      rw [PatternSet.isDisjunction, ← PatternSet.isDisjunction_pattern, hagent]
      rfl
    rw [Attempt.Mirrors, List.foldlM_cons]
    refine Eq.mpr (congrArg _ (Attempt.leaves_bind_pure _)) ?_
    rw [follow, sc.disjunct?_eq_none hdisjunction]
    exact mirrors_key hps hΛ hmore hplan (Nat.lt_succ_self n) (.inl ⟨rfl, rfl⟩) hstart
  refine Attempt.mirrors_bind hfollow fun pr pr' hpr => ?_
  refine Attempt.mirrors_bind (mirrors_restrict hps hΛ hmore hplan hinner (fun _ _ => rfl) hpr)
    fun pr pr' hpr => ?_
  exact Attempt.mirrors_pure hpr.couplings

section Sites

variable {t : Fin (n + 1)} (ht : t.val = n) (hps : ps.AgreeBelow (n + 1) ps')
  (hagent : (ps'.pattern (n + 1)).agent = .stuff t none)
  (hkind : s.isSubkind (f.kind x) (ps'.pattern (n + 1)).kind = true)

/-- What a search for any site comes to at one of them. -/
def leavesAt (f : Forest s) (ps : PatternSet s) (watermark : Nat) (t : Fin (n + 1)) (x : NodeId)
    (i : Nat) : List (Except Halt Couplings) :=
  ((f.preorder x)[i]?).toList.flatMap fun site =>
    Walk.leaves (attemptFrom ⟨f, ps, watermark⟩ (.amid ps [] (n + 1)) (n + 1) (.node x) []
      (fun q nested key view => searchFor ⟨f, ps, watermark⟩ q.val nested key view)
      ⟨[⟨0, t, .normal, .node site.node⟩], some .and, some (pathTo (f.preorder x) i)⟩)

include hagent hkind in
theorem searchFor_stuff :
    searchFor ⟨f, ps', watermark⟩ (n + 1) (.amid ps' [] (n + 1)) (.node x) [] =
      Walk.firstSettled ((List.range (f.preorder x).size).flatMap
        (leavesAt f ps' watermark t x)) := by
  rw [searchFor, Walk.solve_eq, leaves_attempt (isKeyer_root ps' (n + 1)), Attempt.leaves_bind,
    leaves_decide_stuff hagent hkind, List.flatMap_assoc]
  refine congrArg _ (List.flatMap_congr fun i _ => ?_)
  rw [List.flatMap_map]
  rfl

include ht hps hagent in
theorem solvesAlike_leavesAt (watermark : Nat) {i : Nat} {site : Site}
    (hi : (f.preorder x)[i]? = some site) :
    Walk.SolvesAlike (Couplings.Agree (above f x n i))
      (searchFor ⟨f, ps, watermark⟩ n (.amid ps [] n) (.node site.node) [])
      (Walk.firstSettled (leavesAt f ps' watermark t x i)) := by
  rw [leavesAt, hi, searchFor, Walk.solve_eq]
  refine Walk.firstSettled_alike ?_
  rw [Option.toList_some, List.flatMap_singleton]
  exact mirrors_attemptFrom hps ht hagent i site.node

include ht hps hagent hkind in
theorem searchFor_stuff_eq_none
    (hnone : ∀ (i : Nat) (site : Site), (f.preorder x)[i]? = some site →
      searchFor ⟨f, ps, watermark⟩ n (.amid ps [] n) (.node site.node) [] = .ok none) :
    searchFor ⟨f, ps', watermark⟩ (n + 1) (.amid ps' [] (n + 1)) (.node x) [] = .ok none := by
  rw [searchFor_stuff hagent hkind]
  refine Walk.firstSettled_flatMap_of_none fun i hi => ?_
  have hi := Array.getElem?_eq_getElem (List.mem_range.mp hi)
  exact (Walk.eq_none_iff_of_alike (solvesAlike_leavesAt ht hps hagent watermark hi)).mp
    (hnone i _ hi)

include ht hps hagent hkind in
/-- The first site where the search below comes to anything settles the search for any site. -/
theorem solvesAlike_stuff {i : Nat} {site : Site} (hi : (f.preorder x)[i]? = some site)
    (hbefore : ∀ j < i, ∀ site, (f.preorder x)[j]? = some site →
      searchFor ⟨f, ps, watermark⟩ n (.amid ps [] n) (.node site.node) [] = .ok none)
    (hne : searchFor ⟨f, ps, watermark⟩ n (.amid ps [] n) (.node site.node) [] ≠ .ok none) :
    Walk.SolvesAlike (Couplings.Agree (above f x n i))
      (searchFor ⟨f, ps, watermark⟩ n (.amid ps [] n) (.node site.node) [])
      (searchFor ⟨f, ps', watermark⟩ (n + 1) (.amid ps' [] (n + 1)) (.node x) []) := by
  have hlt : i < (f.preorder x).size := (Array.getElem?_eq_some_iff.mp hi).1
  have halike := solvesAlike_leavesAt ht hps hagent watermark hi
  rw [searchFor_stuff hagent hkind, Walk.firstSettled_flatMap_range hlt]
  · exact halike
  · intro j hj
    have hj' := Array.getElem?_eq_getElem (Nat.lt_trans hj hlt)
    exact (Walk.eq_none_iff_of_alike (solvesAlike_leavesAt ht hps hagent watermark hj')).mp
      (hbefore j hj _ hj')
  · exact fun hnone => hne ((Walk.eq_none_iff_of_alike halike).mpr hnone)

end Sites

end Scene

namespace PatternSet

variable {patterns psC psS : PatternSet s} {search rootC rootS : PatternId}
  {replace : Option PatternId}

/-- The patterns of a rule that searches are those of the rule that compares, and one above them. -/
theorem WellFormed.wrap_search (hps : patterns.WellFormed)
    (hC : (Draft.wrap search replace .compare).run patterns = .ok rootC psC)
    (hS : (Draft.wrap search replace .search).run patterns = .ok rootS psS) :
    rootS = rootC + 1 ∧ psC.AgreeBelow rootS psS ∧
      psS.get rootS = ⟨Schema.nodeKind, .stuff rootC none⟩ := by
  obtain ⟨-, hsearch, habove, rfl, rfl⟩ := hps.wrap_eq hC
  obtain ⟨-, -, -, rfl, rfl⟩ := hps.wrap_eq hS
  have hlow : ∀ c ∈ (Agent.overlay search (replace.getD search)).children, c < patterns.size := by
    simp [Agent.children, hsearch, habove]
  have hsize := size_push (n := ⟨Schema.nodeKind, .overlay search (replace.getD search)⟩) hlow
  refine ⟨rfl, fun q hq => get_push_of_lt (hsize.symm ▸ hq), ?_⟩
  rw [← hsize]
  exact get_push_size (by simp [Agent.children, hsize])

/-- The agent of a pattern for any site, with the bound on what it looks for. -/
theorem exists_agent_stuff {ps : PatternSet s} {p t : PatternId} {kind : KindId}
    (h : ps.get p = ⟨kind, .stuff t none⟩) :
    ∃ t' : Fin p, t'.val = t ∧ (ps.pattern p).agent = .stuff t' none := by
  have hagent := ps.map_val_pattern p
  rw [h] at hagent
  cases ha : (ps.pattern p).agent with
  | stuff t' restrict =>
    rw [ha] at hagent
    cases restrict with
    | none => exact ⟨t', by simpa [Agent.map] using hagent, rfl⟩
    | some _ => simp [Agent.map] at hagent
  | _ => simp [ha, Agent.map] at hagent

end PatternSet

namespace Rule

variable {name name' : String} {patterns : PatternSet s} {search : PatternId}
  {replace : Option PatternId} {C S : Rule s}

/-- A rule that searches finds what the rule that compares finds at the first site, in preorder,
where this comes to anything: the same fault, or the same couplings with the root and the path to
the site. -/
theorem find_at_first_site (hs : s.Rooted) (hps : patterns.WellFormed)
    (hC : Rule.make name patterns search replace .compare = .ok C)
    (hS : Rule.make name' patterns search replace .search = .ok S)
    {f : Forest s} (hf : f.WellFormed) {x : NodeId} (hx : x < f.size) :
    S.patterns.get S.plan.root = ⟨Schema.nodeKind, .stuff C.plan.root none⟩ ∧
    ((∀ (i : Nat) (site : Site), (f.preorder x)[i]? = some site → C.find f site.node = .ok none) →
      S.find f x = .ok none) ∧
    ∀ (i : Nat) (site : Site), (f.preorder x)[i]? = some site →
      (∀ j < i, ∀ site', (f.preorder x)[j]? = some site' → C.find f site'.node = .ok none) →
      (∀ e, C.find f site.node = .error e → S.find f x = .error e) ∧
      ∀ c, C.find f site.node = .ok (some c) →
        S.find f x = .ok (some ⟨c.keys ++ [(S.plan.root, .node x)],
          c.paths ++ [(S.plan.root, pathTo (f.preorder x) i)]⟩) := by
  obtain ⟨n, hwrapC, hplanC⟩ := exists_wrap_of_make hC
  obtain ⟨rootS, hwrapS, hplanS⟩ := exists_wrap_of_make hS
  obtain ⟨rfl, hagree, hget⟩ := hps.wrap_search hwrapC hwrapS
  obtain ⟨t, ht, hagent⟩ := PatternSet.exists_agent_stuff hget
  have hrootC : C.plan.root = n := by rw [hplanC, RulePlan.root_make]
  have hrootS : S.plan.root = n + 1 := by rw [hplanS, RulePlan.root_make]
  have hfindC (y : NodeId) : C.find f y =
      Scene.searchFor ⟨f, C.patterns, f.size⟩ n (.amid C.patterns [] n) (.node y) [] := by
    rw [find, hplanC, RulePlan.search_make]
    rfl
  have hfindS : S.find f x =
      Scene.searchFor ⟨f, S.patterns, f.size⟩ (n + 1) (.amid S.patterns [] (n + 1))
      (.node x) [] := by
    rw [find, hplanS, RulePlan.search_make]
    rfl
  have hkind : s.isSubkind (f.kind x) (S.patterns.pattern (n + 1)).kind = true := by
    rw [show (S.patterns.pattern (n + 1)).kind = Schema.nodeKind from congrArg Pattern.kind hget]
    exact hs.isSubkind_nodeKind (hf.get hx).kind_lt
  simp only [hfindC, hfindS, hrootC, hrootS]
  refine ⟨hget, Scene.searchFor_stuff_eq_none ht hagree hagent hkind, fun i site hi hbefore => ?_⟩
  have halike := Scene.solvesAlike_stuff ht hagree hagent hkind hi hbefore
  generalize Scene.searchFor ⟨f, S.patterns, f.size⟩ (n + 1) (.amid S.patterns [] (n + 1)) (.node x)
    [] = found at halike ⊢
  constructor
  · intro e he
    rw [he] at halike
    cases halike (by simp) with
    | error => rfl
  · intro c hc
    rw [hc] at halike
    cases halike (by simp) with
    | @some _ c' hagree =>
      obtain ⟨hkeys, hpaths⟩ := hagree
      obtain ⟨keys, paths⟩ := c'
      rw [show keys = _ from hkeys, show paths = _ from hpaths]
      rfl

/-- The rule that compares with a list that starts and ends with the same empty list. -/
def matchSameEnds : Rule Scene.lists where
  name := "same ends"
  patterns := sameEnds.push ⟨0, .overlay 2 2⟩
  search := 2
  replace := none
  mode := .compare
  plan := RulePlan.make (sameEnds.push ⟨0, .overlay 2 2⟩) 3 []

/-- The outer list has other ends, so that the search goes on to the list inside of it. -/
theorem find_at_first_site_nestedLists :
    matchSameEnds.find nestedLists 4 = .ok none ∧
      (nestedLists.preorder 4)[1]? = some ⟨3, some 0, 0, 0⟩ ∧
      matchSameEnds.find nestedLists 3 = .ok (some
        ⟨[(1, .run true [0]), (0, .node 1), (2, .node 3), (3, .node 3)], []⟩) ∧
      findSameEnds.find nestedLists 4 = .ok (some
        ⟨[(1, .run true [0]), (0, .node 1), (2, .node 3), (3, .node 3), (4, .node 4)],
          [(4, [⟨4, none, 0, 0⟩, ⟨3, some 0, 0, 0⟩])]⟩) := by
  have houter : matchSameEnds.find nestedLists 4 = .ok none := by decide +kernel
  have hsite : (nestedLists.preorder 4)[1]? = some ⟨3, some 0, 0, 0⟩ := by decide +kernel
  have hinner : matchSameEnds.find nestedLists 3 = .ok (some
      ⟨[(1, .run true [0]), (0, .node 1), (2, .node 3), (3, .node 3)], []⟩) := by
    decide +kernel
  have hC : Rule.make "same ends" sameEnds 2 none .compare = .ok matchSameEnds := rfl
  have hS : Rule.make "same ends" sameEnds 2 none .search = .ok findSameEnds := rfl
  have hroot : findSameEnds.plan.root = 4 := RulePlan.root_make _ _ _
  have hpath : pathTo (nestedLists.preorder 4) 1 = [⟨4, none, 0, 0⟩, ⟨3, some 0, 0, 0⟩] := by
    decide +kernel
  obtain ⟨-, -, hfirst⟩ := find_at_first_site (Schema.rooted_base.define Scene.define_lists)
    wellFormed_sameEnds hC hS wellFormed_nestedLists (x := 4) (by decide)
  refine ⟨houter, hsite, hinner, ?_⟩
  have hfound := (hfirst 1 _ hsite fun j hj site' hsite' => ?_).2 _ hinner
  · rw [hfound, hroot, hpath]
    rfl
  · obtain rfl : j = 0 := by omega
    obtain rfl := Option.some.inj (Forest.preorder_zero.symm.trans hsite')
    exact houter

end Rule

end Espalier
