import Espalier.Rule.Rebuild

/-! # Rules -/

namespace Espalier

/-- A rule over the schema `s`, with its plan. -/
structure Rule (s : Schema) where
  name : String
  patterns : PatternSet s
  search : PatternId
  replace : Option PatternId
  mode : Mode
  plan : RulePlan

/-- The limits of a run that sets none. -/
def Limits.standard : Limits := ⟨1000, false⟩

namespace Rule

variable {s : Schema}

/-- Make a rule of a search pattern and a replacement. -/
def make (name : String) (patterns : PatternSet s) (search : PatternId)
    (replace : Option PatternId) (mode : Mode) : Except PatternError (Rule s) :=
  match (Draft.wrap search replace mode).run patterns with
  | .error e _ => .error e
  | .ok root patterns =>
    .ok { name, patterns, search, replace, mode, plan := RulePlan.make patterns root [] }

/-- The couplings of the first hit below `root`. -/
def find (r : Rule s) (f : Forest s) (root : NodeId) : Except Fault (Option Couplings) :=
  Scene.search ⟨f, r.patterns, f.size⟩ r.plan.search (.node root) []

/-- Replace hits below `root` until there are none left or the cap is reached. -/
def apply (r : Rule s) (limits : Limits) (root : NodeId) : Grow s RunError Applied :=
  Workshop.run ⟨r.patterns, r.name, limits⟩ r.plan [] root

/-- `apply` to a forest over a schema that may be another than that of the rule. -/
def applyTo (r : Rule s) (limits : Limits) {t : Schema} (root : NodeId) : Grow t RunError Applied :=
  if h : t = s then h ▸ r.apply limits root else throw (.schemaMismatch r.name)

end Rule

end Espalier
