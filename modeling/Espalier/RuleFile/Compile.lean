import Espalier.Rule.Basic
import Espalier.RuleFile.Basic

/-! # Compiling rule files

A name stands for one pattern wherever it is used, which couples what is searched with what replaces
it.  A named pattern is compiled when its name is first met, so a reference may come before the
definition; a definition that contains its own name is a cycle.
-/

namespace Espalier

inductive CompileError where
  | kind (kind : String) (e : SchemaError)
  | pattern (rule : String) (e : PatternError)
  | unknownName (rule name : String)
  | cycle (rule name : String)
deriving DecidableEq, Repr

def CompileError.message : CompileError → String
  | .kind name e => s!"kind '{name}': {e.message}"
  | .pattern rule e => s!"rule '{rule}': {e.message}"
  | .unknownName rule name => s!"rule '{rule}': undefined pattern '{name}'"
  | .cycle rule name => s!"rule '{rule}': pattern '{name}' contains itself"

namespace Schema

/-- The parent of a kind, once it is defined. -/
def parentOf? (s : Schema) (k : KindSpec) : Option KindId :=
  match k.parent with
  | none => some nodeKind
  | some name => s.lookup name

/-- Define the kinds whose parents are defined; the others come back. -/
def defineSome : Schema → List KindSpec → Except CompileError (Schema × List KindSpec)
  | s, [] => .ok (s, [])
  | s, k :: ks =>
    match s.parentOf? k with
    | some parent =>
      match define k.name parent k.members k.valued s with
      | .error e _ => .error (.kind k.name e)
      | .ok _ s => defineSome s ks
    | none =>
      match defineSome s ks with
      | .error e => .error e
      | .ok (s, deferred) => .ok (s, k :: deferred)

/-- Define kinds in any order, as long as every parent is defined in the end. -/
def defineAll (s : Schema) (kinds : List KindSpec) : Except CompileError Schema :=
  match s.defineSome kinds with
  | .error e => .error e
  | .ok (s, []) => .ok s
  | .ok (s, k :: deferred) =>
    if (k :: deferred).length < kinds.length then s.defineAll (k :: deferred)
    else .error (.kind k.name (.unknownKind (k.parent.getD "")))
termination_by kinds.length

/-- The schema of a rule file. -/
def ofKinds (kinds : List KindSpec) : Except CompileError Schema := base.defineAll kinds

end Schema

/-- The patterns compiled so far, and which of them have names. -/
structure Compiled (s : Schema) where
  patterns : PatternSet s
  names : List (String × PatternId)

abbrev Compile (s : Schema) (α : Type) := EStateM CompileError (Compiled s) α

namespace Compile

variable {s : Schema}

def fail {α : Type} (rule : String) (e : PatternError) : Compile s α := throw (.pattern rule e)

/-- Let a draft go on from the patterns compiled so far. -/
def draft {α : Type} (rule : String) (d : Draft s α) : Compile s α := fun c =>
  match d.run c.patterns with
  | .ok a patterns => .ok a { c with patterns }
  | .error e patterns => .error (.pattern rule e) { c with patterns }

/-- The kind of a pattern; without a name it is `Node`. -/
def kindOf (rule : String) : Option String → Compile s KindId
  | none => pure Schema.nodeKind
  | some name =>
    match s.kind name with
    | .ok k => pure k
    | .error e => fail rule (.schema e)

/-- A member pattern that is still to be compiled. -/
inductive Part (s : Schema) where
  | one (pattern : Compile s PatternId)
  | many (patterns : Compile s (List PatternId))

/-- Compile the members of a standard pattern in the order of the layout.  Members that are not
given stay open. -/
def members (rule : String) (kind : KindId) (given : List (String × Part s)) :
    Compile s (List (Member PatternId)) :=
  match given.find? fun (name, _) => (s.memberIndex kind name).isNone with
  | some (name, _) => fail rule (.schema (.unknownMember (s.name kind) name))
  | none => (s.layout kind).zipIdx.mapM fun (d, index) =>
    match given.lookup d.name with
    | none => pure (.empty d.category)
    | some (.one pattern) =>
      if d.category = .single then do return .single (some (← pattern))
      else fail rule (.schema (.memberCategory (s.name kind) index d.category .single))
    | some (.many patterns) =>
      match d.category with
      | .single => fail rule (.schema (.memberCategory (s.name kind) index .single .sequence))
      | .sequence => do return .sequence (← patterns)
      | .collection => do return .collection (← patterns)

mutual

/-- Compile a pattern, where `resolve` compiles what a name stands for. -/
def pattern (rule : String) (resolve : String → Compile s PatternId) :
    PatternSpec → Compile s PatternId
  | .mk (some name) _ _ => resolve name
  | .mk none kind agent => define rule resolve kind agent

/-- Compile a pattern whatever its name is. -/
def define (rule : String) (resolve : String → Compile s PatternId) (kind : Option String) :
    AgentSpec → Compile s PatternId
  | .standard value given => do
    let kind ← kindOf rule kind
    let members ← members rule kind (parts rule resolve given)
    draft rule (Draft.pattern kind (.standard value members))
  | .star restriction => do
    let kind ← kindOf rule kind
    let restriction ← option rule resolve restriction
    draft rule (Draft.pattern kind (.star restriction))
  | .stuff terminus restriction => do
    let kind ← kindOf rule kind
    let terminus ← pattern rule resolve terminus
    let restriction ← option rule resolve restriction
    draft rule (Draft.pattern kind (.stuff terminus restriction))
  | .anyNode terminus => do
    let kind ← kindOf rule kind
    let terminus ← pattern rule resolve terminus
    draft rule (Draft.pattern kind (.anyNode terminus))
  | .overlay through above => do
    let kind ← kindOf rule kind
    let through ← pattern rule resolve through
    let above ← pattern rule resolve above
    draft rule (Draft.pattern kind (.overlay through above))
  | .notMatch p => do
    let kind ← kindOf rule kind
    let p ← pattern rule resolve p
    draft rule (Draft.pattern kind (.notMatch p))
  | .matchAll ps => do
    let kind ← kindOf rule kind
    let ps ← list rule resolve ps
    draft rule (Draft.pattern kind (.matchAll ps))
  | .matchAny ps => do
    let kind ← kindOf rule kind
    let ps ← list rule resolve ps
    draft rule (Draft.pattern kind (.matchAny ps))
  | .greenGrass through => do
    let kind ← kindOf rule kind
    let through ← pattern rule resolve through
    draft rule (Draft.pattern kind (.greenGrass through))
  | .slave through search replace mode => do
    let kind ← kindOf rule kind
    let through ← pattern rule resolve through
    let search ← pattern rule resolve search
    let replace ← option rule resolve replace
    draft rule (Draft.slave kind through search replace mode)
  | .ref => do
    let _ ← kindOf rule kind
    throw (.unknownName rule "")

def option (rule : String) (resolve : String → Compile s PatternId) :
    Option PatternSpec → Compile s (Option PatternId)
  | none => pure none
  | some p => do return some (← pattern rule resolve p)

def list (rule : String) (resolve : String → Compile s PatternId) :
    List PatternSpec → Compile s (List PatternId)
  | [] => pure []
  | p :: ps => do
    let q ← pattern rule resolve p
    return q :: (← list rule resolve ps)

def parts (rule : String) (resolve : String → Compile s PatternId) :
    List (String × MemberPattern) → List (String × Part s)
  | [] => []
  | (name, m) :: ms => (name, part rule resolve m) :: parts rule resolve ms

def part (rule : String) (resolve : String → Compile s PatternId) : MemberPattern → Part s
  | .one p => .one (pattern rule resolve p)
  | .many ps => .many (list rule resolve ps)

end

/-- Compile what a name stands for, once.  `building` are the names whose definitions the name was
met in; of the defined names at most `left` are not among them. -/
def named (rule : String) (definitions : List (String × PatternSpec)) :
    (left : Nat) → (building : List String) → String → Compile s PatternId
  | left, building, name => do
    match (← get).names.lookup name with
    | some id => return id
    | none =>
      match definitions.lookup name with
      | none => throw (.unknownName rule name)
      | some (.mk _ kind agent) =>
        if building.contains name then throw (.cycle rule name)
        else
          match left with
          | 0 => throw (.cycle rule name)
          | left + 1 => do
            let id ← define rule (named rule definitions left (name :: building)) kind agent
            modify fun c => { c with names := (name, id) :: c.names }
            return id

end Compile

/-- A rule with the limits that its file sets. -/
structure LimitedRule (s : Schema) where
  rule : Rule s
  limits : Limits
  description : Option String

/-- Compile one rule of a file. -/
def RuleSpec.compile (info : Metadata) (s : Schema) (r : RuleSpec) :
    Except CompileError (LimitedRule s) :=
  let definitions := r.definitions
  let resolve := Compile.named r.id definitions definitions.length []
  let patterns : Compile s (PatternId × Option PatternId) := do
    let search ← Compile.pattern r.id resolve r.search
    let replace ← Compile.option r.id resolve r.replace
    return (search, replace)
  match patterns.run ⟨.empty, []⟩ with
  | .error e _ => .error e
  | .ok (search, replace) compiled =>
    match Rule.make r.id compiled.patterns search replace r.mode with
    | .error e => .error (.pattern r.id e)
    | .ok rule =>
      .ok {
        rule
        limits := ⟨r.maxRepetitions.getD info.maxRepetitions, info.strict⟩
        description := r.description }

/-- All that a rule file defines, the rules in the order of the file. -/
structure RuleSet where
  name : String
  schema : Schema
  rules : List (LimitedRule schema)

def RuleFile.compile (file : RuleFile) : Except CompileError RuleSet := do
  let schema ← Schema.ofKinds file.kinds
  let rules ← file.rules.mapM (·.compile file.info schema)
  return { name := file.info.name, schema, rules }

end Espalier
