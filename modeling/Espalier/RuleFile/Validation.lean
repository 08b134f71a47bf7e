import Espalier.RuleFile.Basic
import Espalier.Text.Blank
import Espalier.Text.Similarity

/-! # Validation of rule files

All that can be said against a rule file before it is compiled, in the order of the file.
-/

namespace Espalier

inductive Issue where
  | emptyRuleList
  | missingField (rule : Option String) (field : String)
  | duplicateId (rule : String)
  | duplicateKind (name : String)
  | duplicateName (rule name : String)
  | unknownName (rule name : String) (suggestion : Option String)
  | unknownKind (rule : Option String) (name : String) (suggestion : Option String)
  | invalidValue (rule : Option String) (message : String)
deriving DecidableEq, Repr

namespace Issue

def hint : Option String → String
  | some s => s!" (did you mean '{s}'?)"
  | none => ""

def message : Issue → String
  | .emptyRuleList => "rule file contains no rules"
  | .missingField (some id) field => s!"rule '{id}' missing required field '{field}'"
  | .missingField none field => s!"missing required field '{field}'"
  | .duplicateId rule => s!"rule id '{rule}' is used more than once"
  | .duplicateKind name => s!"kind '{name}' is defined more than once"
  | .duplicateName rule name => s!"rule '{rule}' defines pattern '{name}' more than once"
  | .unknownName rule name suggestion =>
    s!"rule '{rule}' refers to undefined pattern '{name}'" ++ hint suggestion
  | .unknownKind (some id) name suggestion =>
    s!"rule '{id}' uses unknown kind '{name}'" ++ hint suggestion
  | .unknownKind none name suggestion => s!"unknown kind '{name}'" ++ hint suggestion
  | .invalidValue (some id) message => s!"rule '{id}' has invalid configuration: {message}"
  | .invalidValue none message => s!"invalid rule configuration: {message}"

end Issue

/-- A kind that is used has to be one of those known. -/
def checkKind (rule : Option String) (known : List String) (name : String) : List Issue :=
  if known.contains name then [] else [.unknownKind rule name (Text.suggest name known)]

/-- The names of kinds are not blank and are defined once, and `Node` is not defined again. -/
def checkKinds (known : List String) : (seen : List String) → List KindSpec → List Issue
  | _, [] => []
  | seen, k :: ks =>
    let (issues, seen) :=
      if Text.isBlank k.name then ([.missingField none "kinds.name"], seen)
      else if seen.contains k.name || k.name == "Node" then
        ([.duplicateKind k.name], k.name :: seen)
      else ([], k.name :: seen)
    issues ++ k.parent.toList.flatMap (checkKind none known) ++ checkKinds known seen ks

/-- In one rule a name is defined once, and a reference has a name. -/
def checkNames (rule : String) : (seen : List String) → List PatternSpec → List Issue
  | _, [] => []
  | seen, p :: ps =>
    match p.name, p.isRef with
    | some name, false =>
      if seen.contains name then .duplicateName rule name :: checkNames rule seen ps
      else checkNames rule (name :: seen) ps
    | none, true => .missingField (some rule) "ref.name" :: checkNames rule seen ps
    | _, _ => checkNames rule seen ps

/-- What a pattern refers to is defined, its kind is known, and a disjunction has a disjunct. -/
def checkPattern (rule : String) (known defined : List String) (p : PatternSpec) : List Issue :=
  let name :=
    match p.name, p.isRef with
    | some name, true =>
      if defined.contains name then []
      else [Issue.unknownName rule name (Text.suggest name defined)]
    | _, _ => []
  let disjuncts :=
    match p.agent with
    | .matchAny [] => [Issue.invalidValue (some rule) "match-any needs at least one pattern"]
    | _ => []
  name ++ p.kind.toList.flatMap (checkKind (some rule) known) ++ disjuncts

/-- The patterns of a rule: all names first, then all that is said with them. -/
def RuleSpec.checkPatterns (known : List String) (r : RuleSpec) : List Issue :=
  let defined := (r.definitions.map (·.1)).eraseDups
  checkNames r.id [] r.patterns ++ r.patterns.flatMap (checkPattern r.id known defined)

/-- The ids of rules are not blank and are used once, and a cap is at least one. -/
def checkRules (known : List String) : (seen : List String) → List RuleSpec → List Issue
  | _, [] => []
  | seen, r :: rs =>
    let (issues, seen) :=
      if Text.isBlank r.id then ([.missingField none "id"], seen)
      else if seen.contains r.id then ([.duplicateId r.id], seen)
      else ([], r.id :: seen)
    let cap :=
      if r.maxRepetitions = some 0 then
        [Issue.invalidValue (some r.id) "max_repetitions must be at least 1"]
      else []
    issues ++ cap ++ r.checkPatterns known ++ checkRules known seen rs

/-- All that is wrong with a rule file. -/
def RuleFile.issues (file : RuleFile) : List Issue :=
  let known := "Node" :: file.kinds.map (·.name)
  let rules := if file.rules.isEmpty then [Issue.emptyRuleList] else []
  let cap :=
    if file.info.maxRepetitions = 0 then
      [Issue.invalidValue none "meta.max_repetitions must be at least 1"]
    else []
  rules ++ cap ++ checkKinds known [] file.kinds ++ checkRules known [] file.rules

end Espalier
