import Espalier.Proofs.Compiling
import Espalier.Proofs.RoundTrip
import Espalier.Proofs.TwinRuns
import Espalier.RuleFile.Run

/-!
# Rules that fail

A rule that fails may leave nodes behind, but none of them is in the tree that the next rule starts
from.  What the rules after it do depends on that tree alone, so that all goes as it would have gone
without the rule.
-/

namespace Espalier

variable {s : Schema}

namespace Subject

/-- The tree that rules are applied to. -/
def tree (x : Subject s) : Tree := x.forest.treeAt x.root

structure WellFormed (x : Subject s) : Prop where
  forest : x.forest.WellFormed
  root_lt : x.root < x.forest.size

end Subject

namespace Trial

/-- Whether the rule has worked out. -/
def succeeded (t : Trial s) : Bool := t.outcome.isOk

/-- The hits of the rule, or the error that it fails with. -/
def hits (t : Trial s) : Except RunError Nat := t.outcome.map Applied.hits

/-- Both trials are of one rule, which has as many hits in the one as in the other. -/
def SameHits (t t' : Trial s) : Prop :=
  t'.rule = t.rule ∧ ∃ a b, t.outcome = .ok a ∧ t'.outcome = .ok b ∧ b.hits = a.hits

variable {t t' : Trial s}

theorem SameHits.hits_eq (h : t.SameHits t') : t.hits = t'.hits := by
  obtain ⟨-, a, b, ha, hb, hab⟩ := h
  rw [hits, hits, ha, hb]
  exact congrArg Except.ok hab.symm

theorem map_hits_of_forall₂ {ts ts' : List (Trial s)} (h : List.Forall₂ SameHits ts ts') :
    ts.map hits = ts'.map hits := by
  rw [← List.forall₂_eq_eq_eq, List.forall₂_map_left_iff, List.forall₂_map_right_iff]
  exact h.imp fun _ _ h => h.hits_eq

theorem map_hits_filter (ts : List (Trial s)) :
    (ts.filter succeeded).map hits = (ts.map hits).filter Except.isOk := by
  rw [List.filter_map]
  congr 2
  funext t
  unfold succeeded Function.comp hits
  cases t.outcome <;> rfl

end Trial

/-! ## One rule -/

namespace LimitedRule

variable {r : LimitedRule s} {x y : Subject s}

theorem try_of_ok {a : Applied} {f : Forest s}
    (h : r.rule.apply r.limits x.root x.forest = .ok a f) :
    r.try x = ⟨r, x, .ok a, ⟨f, a.root⟩⟩ := by
  unfold LimitedRule.try EStateM.run
  rw [h]

theorem try_of_error {e : RunError} {f : Forest s}
    (h : r.rule.apply r.limits x.root x.forest = .error e f) :
    r.try x = ⟨r, x, .error e, ⟨f, x.root⟩⟩ := by
  unfold LimitedRule.try EStateM.run
  rw [h]

theorem rule_try : (r.try x).rule = r := by
  unfold LimitedRule.try
  split <;> rfl

theorem root_try_of_failed (h : (r.try x).succeeded = false) : (r.try x).after.root = x.root := by
  cases hrun : r.rule.apply r.limits x.root x.forest with
  | ok a f =>
    rw [try_of_ok hrun] at h
    cases h
  | error e f => rw [try_of_error hrun]

theorem forest_try : (r.try x).after.forest = (r.rule.apply r.limits x.root).after x.forest := by
  rw [Grow.after]
  cases hrun : r.rule.apply r.limits x.root x.forest with
  | ok a f => rw [try_of_ok hrun]
  | error e f => rw [try_of_error hrun]

/-- Whether a rule fails or not, all that was there stays. -/
theorem extends_try (hbare : (default : Node NodeId).Fits s) (hx : x.WellFormed) :
    x.forest.Extends (r.try x).after.forest ∧ (r.try x).after.forest.WellFormed := by
  rw [forest_try]
  exact (Workshop.appends_run _ hbare r.rule.plan [] x.root hx.forest).forest_after

theorem wellFormed_try (hbare : (default : Node NodeId).Fits s) (hx : x.WellFormed) :
    (r.try x).after.WellFormed := by
  obtain ⟨hext, hf⟩ := r.extends_try hbare hx
  refine ⟨hf, ?_⟩
  cases hrun : r.rule.apply r.limits x.root x.forest with
  | ok a f =>
    obtain ⟨hext, -, hroot⟩ :=
      (Workshop.appends_run _ hbare r.rule.plan [] x.root hx.forest).of_ok hrun
    rw [try_of_ok hrun]
    rcases hroot with hroot | hnew
    · exact hroot ▸ Nat.lt_of_lt_of_le hx.root_lt hext.size_le
    · exact hnew.lt_size
  | error e f =>
    rw [try_of_error hrun] at hext ⊢
    exact Nat.lt_of_lt_of_le hx.root_lt hext.size_le

/-- A rule that fails leaves the tree as it was. -/
theorem tree_try_of_failed (hbare : (default : Node NodeId).Fits s) (hx : x.WellFormed)
    (h : (r.try x).succeeded = false) : (r.try x).after.tree = x.tree := by
  rw [Subject.tree, root_try_of_failed h]
  exact (r.extends_try hbare hx).1.treeAt_eq hx.root_lt

/-- A rule that works out on a tree does so wherever that tree stands, and comes to the same. -/
theorem try_of_tree_eq (hs : s.Built) (hps : r.rule.patterns.WellFormed) (hx : x.WellFormed)
    (hy : y.WellFormed) (h : x.tree = y.tree) (hsucceeded : (r.try x).succeeded = true) :
    (r.try x).SameHits (r.try y) ∧ (r.try y).after.tree = (r.try x).after.tree := by
  have hready : (⟨x.forest, y.forest, []⟩ : ForestPair s).Ready :=
    ⟨hx.forest, hy.forest, List.forall_mem_nil _⟩
  have htwins := ForestPair.twins_of_treeAt_eq hs.distinct hx.forest hy.forest
    hx.root_lt hy.root_lt h
  have hrun : Grow.Abreast (r.rule.apply r.limits x.root) (r.rule.apply r.limits y.root)
      ⟨x.forest, y.forest, []⟩ _ := Workshop.abreast_run hs.wellFormed hps r.rule.plan hready htwins
  rcases hrun with ⟨e, f, g, hl, -⟩ | ⟨a, b, P, hl, hr, -, -, hhits, hroots⟩
  · rw [try_of_error hl] at hsucceeded
    cases hsucceeded
  · rw [try_of_ok hl, try_of_ok hr]
    exact ⟨⟨rfl, a, b, rfl, rfl, hhits.symm⟩, hroots.treeAt_eq.symm⟩

end LimitedRule

/-! ## All rules -/

theorem applyEach_cons (r : LimitedRule s) (rs : List (LimitedRule s)) (x : Subject s) :
    applyEach (r :: rs) x =
      (r.try x :: (applyEach rs (r.try x).after).1, (applyEach rs (r.try x).after).2) := rfl

theorem map_rule_applyEach (rs : List (LimitedRule s)) (x : Subject s) :
    (applyEach rs x).1.map Trial.rule = rs := by
  induction rs generalizing x with
  | nil => rfl
  | cons r rs ih => rw [applyEach_cons, List.map_cons, ih, LimitedRule.rule_try]

/-- From the same tree, the rules that have not failed do without the others what they have done
among them. -/
theorem applyEach_succeeded (hs : s.Built) {rs : List (LimitedRule s)}
    (hps : ∀ r ∈ rs, r.rule.patterns.WellFormed) {x y : Subject s} (hx : x.WellFormed)
    (hy : y.WellFormed) (h : x.tree = y.tree) {kept : List (Trial s)}
    (hkept : kept = (applyEach rs x).1.filter Trial.succeeded) :
    List.Forall₂ Trial.SameHits kept (applyEach (kept.map Trial.rule) y).1 ∧
      (applyEach (kept.map Trial.rule) y).2.tree = (applyEach rs x).2.tree := by
  have hbare := fits_default hs.wellFormed hs.size_pos
  subst hkept
  induction rs generalizing x y with
  | nil => exact ⟨.nil, h.symm⟩
  | cons r rs ih =>
    rw [List.forall_mem_cons] at hps
    have hafter := r.wellFormed_try hbare hx
    rw [applyEach_cons]
    dsimp only
    cases hsucceeded : (r.try x).succeeded with
    | false =>
      rw [List.filter_cons_of_neg (by rw [hsucceeded]; exact Bool.false_ne_true)]
      exact ih hps.2 hafter hy ((r.tree_try_of_failed hbare hx hsucceeded).trans h)
    | true =>
      obtain ⟨hhits, htree⟩ := r.try_of_tree_eq hs hps.1 hx hy h hsucceeded
      rw [List.filter_cons_of_pos hsucceeded, List.map_cons, LimitedRule.rule_try, applyEach_cons]
      obtain ⟨hrest, hlast⟩ := ih hps.2 hafter (r.wellFormed_try hbare hy) htree.symm
      exact ⟨.cons hhits hrest, hlast⟩

/-- Rules of a compiled file that fail might as well not be there.  Without them the loop over the
rules has no failure, every other rule has as many hits as before, and the tree comes out the
same. -/
theorem RuleFile.applyEach_without_failed {file : RuleFile} {set : RuleSet}
    (hset : file.compile = .ok set) {t : Tree} {root : NodeId} {f : Forest set.schema}
    (himport : Grow.addTree t .empty = .ok root f) :
    let run := applyEach set.rules ⟨f, root⟩
    let kept := run.1.filter Trial.succeeded
    let again := applyEach (kept.map Trial.rule) ⟨f, root⟩
    run.1.map Trial.rule = set.rules ∧ List.Forall₂ Trial.SameHits kept again.1 ∧
      again.2.forest.treeAt again.2.root = run.2.forest.treeAt run.2.root := by
  obtain ⟨hs, hps⟩ := RuleFile.wellFormed_of_compile hset
  obtain ⟨-, hf, hroot⟩ := (Grow.appends_addTree t Forest.wellFormed_empty).of_ok himport
  have hx : Subject.WellFormed ⟨f, root⟩ := ⟨hf, hroot.lt_size⟩
  obtain ⟨hhits, htree⟩ := applyEach_succeeded hs hps hx hx rfl rfl
  exact ⟨map_rule_applyEach set.rules ⟨f, root⟩, hhits, htree⟩

/-- What the rules of a file come to on a tree. -/
structure Course where
  /-- The size of the forest before the rules. -/
  size : Nat
  /-- The hits or the error of each rule, and the size of the forest after it. -/
  trials : List (Except RunError Nat × Nat)
  /-- The kind and the value of the tree in the end, and whether it has no members. -/
  kind : String
  value : Option Value
  leaf : Bool
deriving DecidableEq

/-- Apply the rules of a file, if it compiles and the tree fits its kinds. -/
def RuleFile.course (file : RuleFile) (t : Tree) : Option Course :=
  match file.compile with
  | .error _ => none
  | .ok set =>
    match Grow.addTree t (.empty : Forest set.schema) with
    | .error _ _ => none
    | .ok root f =>
      let run := applyEach set.rules ⟨f, root⟩
      some ⟨f.size, run.1.map fun t => (t.hits, t.after.forest.size), run.2.tree.kind,
        run.2.tree.value, run.2.tree.members.isEmpty⟩

theorem Tree.eq_leaf {t : Tree} {kind : String} {value : Option Value} (hkind : t.kind = kind)
    (hvalue : t.value = value) (hmembers : t.members.isEmpty = true) : t = .node kind value [] := by
  obtain ⟨kind', value', members⟩ := t
  obtain rfl : kind' = kind := hkind
  obtain rfl : value' = value := hvalue
  obtain rfl : members = [] := List.isEmpty_iff.mp hmembers
  rfl

/-- A pattern of the kind `List`. -/
def PatternSpec.list (items : List PatternSpec) : PatternSpec :=
  .mk none (some "List") (.standard none [("items", .many items)])

/-- Two rules for an empty list, each of them for two hits at most.  The first one puts a list into
it, which is empty in turn, and the second one makes a leaf of it. -/
def growAndClose : RuleFile where
  info := ⟨"empty lists", none, 2, true⟩
  kinds := [⟨"List", none, [⟨"items", .sequence⟩], false⟩, ⟨"Leaf", none, [], false⟩]
  rules := [
    ⟨"grow", none, .search, .list [], some (.list [.list []]), none⟩,
    ⟨"close", none, .search, .list [], some (.mk none (some "Leaf") (.standard none [])), none⟩]

/-- The first rule fails at its limit, when it has brought five nodes into the forest.  The second
one has one hit after it, and as many without it. -/
theorem RuleFile.applyEach_without_failed_growAndClose :
    ∃ (set : RuleSet) (root : NodeId) (f : Forest set.schema), growAndClose.compile = .ok set ∧
      Grow.addTree (.node "List" none []) .empty = .ok root f ∧ f.size = 1 ∧
      ∃ run, run = applyEach set.rules ⟨f, root⟩ ∧
        (run.1.map fun t => (t.hits, t.after.forest.size)) =
          [(.error (.possiblyInfinite "grow" 2), 6), (.ok 1, 7)] ∧
        run.2.tree = .node "Leaf" none [] ∧
        ∃ again, again = applyEach ((run.1.filter Trial.succeeded).map Trial.rule) ⟨f, root⟩ ∧
          again.1.map Trial.hits = [.ok 1] ∧ again.2.tree = .node "Leaf" none [] := by
  have hcourse : growAndClose.course (.node "List" none []) =
      some ⟨1, [(.error (.possiblyInfinite "grow" 2), 6), (.ok 1, 7)], "Leaf", none, true⟩ := by
    decide +kernel
  rw [RuleFile.course] at hcourse
  split at hcourse
  next => cases hcourse
  next set hset =>
    split at hcourse
    next => cases hcourse
    next root f himport =>
      obtain ⟨hsize, htrials, hkind, hvalue, hmembers⟩ := Course.mk.inj (Option.some.inj hcourse)
      obtain ⟨-, hhits, htree⟩ := RuleFile.applyEach_without_failed hset himport
      have hleaf := Tree.eq_leaf hkind hvalue hmembers
      refine ⟨set, root, f, hset, himport, hsize, _, rfl, htrials, hleaf, _, rfl, ?_,
        htree.trans hleaf⟩
      rw [← Trial.map_hits_of_forall₂ hhits, Trial.map_hits_filter]
      have hall := congrArg (List.map Prod.fst) htrials
      rw [List.map_map] at hall
      exact congrArg (List.filter Except.isOk) hall

end Espalier
