import Espalier.Command.Help
import Espalier.Command.Report
import Espalier.Command.Script
import Espalier.RuleFile.Load
import Espalier.RuleFile.Run
import Espalier.Text.LineDiff
import Espalier.Tree.Json

/-! # Running commands -/

namespace Espalier

/-- A tree as it is written to a file. -/
def Tree.render (t : Tree) : String := Json.writePretty 0 t.toData

/-- A script that may end with a report. -/
abbrev Job (α : Type) := ExceptT Report Script α

namespace Job

variable {α : Type}

def fail (message : String) (causes : List String) : Job α := throw ⟨message, causes⟩

def sayLine (text : String) : Job Unit := ExceptT.lift (Script.sayLine text)

def complainLine (text : String) : Job Unit := ExceptT.lift (Script.complainLine text)

def look (path : String) : Job (Option FileKind) := ExceptT.lift (.look path .done)

def list (path : String) : Job (List (String × FileKind)) := ExceptT.lift (.list path .done)

def read (path : String) : Job (Except FileError String) := ExceptT.lift (.read path .done)

def write (path text : String) : Job (Except FileError Unit) :=
  ExceptT.lift (.write path text .done)

/-- What went well, or a report on what did not. -/
def orFail (message : String) : Except FileError α → Job α
  | .ok a => pure a
  | .error e => fail message [e.message]

end Job

open Job

/-- Whether a name is that of a rule file in a folder. -/
def isRuleFileName (name : String) : Bool := name.endsWith ".toml" && name ≠ ".toml"

/-- The path of a file in a folder. -/
def pathIn (folder name : String) : String :=
  if folder.endsWith "/" then folder ++ name else folder ++ "/" ++ name

/-- The rule file at a path, or those of a folder in the order of their names. -/
def ruleFiles (path : String) : Job (List String) := do
  match ← look path with
  | some .file => return [path]
  | none | some .device => fail s!"rule path {path} does not exist" []
  | some .folder =>
    let entries ← list path
    let names := (entries.filter fun (name, kind) => kind == .file && isRuleFileName name).map (·.1)
    if names.isEmpty then fail s!"No .toml rule files found in {path}" []
    else return (names.mergeSort fun a b => !(b < a)).map (pathIn path)

/-- Why the rule file at a path cannot be used. -/
inductive RuleFileError where
  | unreadable (e : FileError)
  | unusable (e : LoadError)

def RuleFileError.message (path : String) : RuleFileError → String
  | .unreadable e => s!"failed to read rule file {path}: {e.message}"
  | .unusable e => e.message (some path)

def RuleFileError.causes : RuleFileError → List String
  | .unreadable e => [e.message]
  | .unusable e => e.causes

def loadRules (path : String) : Job (Except RuleFileError RuleSet) := do
  match ← read path with
  | .error e => return .error (.unreadable e)
  | .ok text =>
    match RuleSet.load text with
    | .error e => return .error (.unusable e)
    | .ok set => return .ok set

/-- The rules of a file that has to be usable. -/
def rulesOf (path : String) : Job RuleSet := do
  match ← loadRules path with
  | .error e => fail (e.message path) e.causes
  | .ok set => return set

/-- What came of the rules so far. -/
structure Tally where
  hits : Nat
  unmatched : Nat
  failed : Nat

def Tally.add (t : Tally) : Except RunError Applied → Tally
  | .ok applied =>
    if 0 < applied.hits then { t with hits := t.hits + applied.hits }
    else { t with unmatched := t.unmatched + 1 }
  | .error _ => { t with failed := t.failed + 1 }

def Trial.announce {s : Schema} (t : Trial s) : Job Unit :=
  match t.outcome with
  | .ok applied =>
    if 0 < applied.hits then sayLine s!"✓ {t.rule.rule.name}: {applied.hits} hit(s)"
    else sayLine s!"⊙ {t.rule.rule.name}: No match"
  | .error e => complainLine s!"✗ {t.rule.rule.name}: Error - {e.message}"

/-- Apply the rules of one file to a tree. -/
def applyFile (diff : Bool) (tree : Tree) (tally : Tally) (path : String) : Job (Tree × Tally) := do
  sayLine s!"Loading rules from {path}..."
  let set ← rulesOf path
  match (Grow.addTree tree).run (Forest.empty : Forest set.schema) with
  | .error e _ => fail s!"tree does not fit the kinds of {path}" [e.message]
  | .ok root forest =>
    let (trials, last) := applyEach set.rules ⟨forest, root⟩
    trials.forM Trial.announce
    let result := last.forest.treeAt last.root
    let before := tree.render
    let after := result.render
    if diff && before != after then
      sayLine s!"\n--- tree (before {path})"
      sayLine s!"+++ tree (after {path})"
      ExceptT.lift (Script.say (Text.lineDiff before after))
    sayLine ""
    return (result, trials.foldl (fun tally t => tally.add t.outcome) tally)

/-- Apply the rules of several files, each to what the ones before it have made. -/
def applyFiles (diff : Bool) : Tree → Tally → List String → Job (Tree × Tally)
  | tree, tally, [] => pure (tree, tally)
  | tree, tally, path :: paths => do
    let (tree, tally) ← applyFile diff tree tally path
    applyFiles diff tree tally paths

def readTree (path : String) : Job Tree := do
  let text ← orFail s!"failed to read tree from {path}" (← read path)
  match Tree.read? text with
  | some tree => return tree
  | none => fail s!"failed to parse tree JSON from {path}" []

/-- Whether a command did what it should, apart from what it reports. -/
def exitCode (failed : Nat) : Nat := if 0 < failed then 1 else 0

def runApply (rules tree : String) (output : Option String) (dryRun diff : Bool) : Job Nat := do
  let files ← ruleFiles rules
  let subject ← readTree tree
  if dryRun then sayLine "[DRY RUN - the rewritten tree is not written]"
  let (result, tally) ← applyFiles diff subject ⟨0, 0, 0⟩ files
  match output with
  | none => sayLine result.render
  | some path =>
    if dryRun then sayLine s!"Would write {path}"
    else
      orFail s!"failed to write tree to {path}" (← write path (result.render ++ "\n"))
      sayLine s!"Wrote {path}"
  sayLine "Summary:"
  sayLine s!"  {tally.hits} hit(s)"
  sayLine s!"  {tally.unmatched} rule(s) without match"
  sayLine s!"  {tally.failed} failed"
  return exitCode tally.failed

/-- Check one rule file; whether it failed. -/
def checkFile (path : String) : Job Bool := do
  match ← loadRules path with
  | .ok set =>
    sayLine s!"✓ {path}: {set.rules.length} rule(s), {set.schema.size} kind(s)"
    return false
  | .error (.unusable (.invalid issues)) =>
    complainLine s!"✗ {path}: INVALID"
    issues.forM fun issue => complainLine s!"  - {issue.message}"
    return true
  | .error e =>
    complainLine s!"✗ {path}: Error - {e.message path}"
    return true

def runCheck (rules : String) : Job Nat := do
  let files ← ruleFiles rules
  sayLine "Checking rule files..."
  let failures ← files.mapM checkFile
  return exitCode (failures.count true)

/-- A line on a rule: its mode, its limits and what it is for. -/
def LimitedRule.summary {s : Schema} (r : LimitedRule s) : String :=
  let strict := if r.limits.strict then ", strict" else ""
  let description := match r.description with
    | some description => " " ++ description
    | none => ""
  s!"  - {r.rule.name} [{r.rule.mode.word}, max {r.limits.maxRepetitions}{strict}]{description}"

def listFile (path : String) : Job Unit := do
  let set ← rulesOf path
  sayLine (if set.name.isEmpty then path else s!"{set.name} ({path})")
  set.rules.forM fun r => sayLine r.summary
  sayLine ""

def runList (rules : String) : Job Nat := do
  (← ruleFiles rules).forM listFile
  return 0

def Command.job : Command → Job Nat
  | .apply rules tree output dryRun diff => runApply rules tree output dryRun diff
  | .check rules => runCheck rules
  | .list rules => runList rules

/-- Run a command line; the result is the exit code. -/
def runCommand (args : List String) : Script Nat := do
  match Arguments.command args with
  | .error (.help topic) =>
    Script.say topic.help
    return 0
  | .error .version =>
    Script.say versionText
    return 0
  | .error .misuse =>
    Script.complainLine (Topic.usage .general)
    return 2
  | .ok command =>
    match ← command.job.run with
    | .ok code => return code
    | .error report =>
      Script.complainLine report.render
      return 1

end Espalier
