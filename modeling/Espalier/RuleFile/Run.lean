import Espalier.RuleFile.Compile

/-! # Applying the rules of a file

Each rule goes on from what the rules before it have made.  A rule that fails leaves the tree as it
was, though nodes that it has made may stay in the forest.
-/

namespace Espalier

variable {s : Schema}

/-- A forest and the tree in it that rules are applied to. -/
structure Subject (s : Schema) where
  forest : Forest s
  root : NodeId

/-- What one rule did. -/
structure Trial (s : Schema) where
  rule : LimitedRule s
  before : Subject s
  outcome : Except RunError Applied
  after : Subject s

/-- Apply a rule; after a failure the tree is the one before it. -/
def LimitedRule.try (r : LimitedRule s) (x : Subject s) : Trial s :=
  match (r.rule.apply r.limits x.root).run x.forest with
  | .ok applied forest => ⟨r, x, .ok applied, ⟨forest, applied.root⟩⟩
  | .error e forest => ⟨r, x, .error e, ⟨forest, x.root⟩⟩

/-- Apply rules one after another, whether they fail or not. -/
def applyEach : List (LimitedRule s) → Subject s → List (Trial s) × Subject s
  | [], x => ([], x)
  | r :: rs, x =>
    let trial := r.try x
    let (trials, last) := applyEach rs trial.after
    (trial :: trials, last)

end Espalier
