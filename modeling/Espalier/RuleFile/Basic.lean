import Espalier.Pattern.Basic

/-! # Rule files

What a rule file says: kinds, and rules made of patterns that name kinds, members and each other.
-/

namespace Espalier

mutual

/-- A pattern as it is written.  A name makes it known to references; a reference has the name of
what it refers to. -/
inductive PatternSpec where
  | mk (name kind : Option String) (agent : AgentSpec)

inductive AgentSpec where
  /-- Members are in the order of their names. -/
  | standard (value : Option Value) (members : List (String × MemberPattern))
  | star (restriction : Option PatternSpec)
  | stuff (terminus : PatternSpec) (restriction : Option PatternSpec)
  | anyNode (terminus : PatternSpec)
  | overlay (through above : PatternSpec)
  | notMatch (pattern : PatternSpec)
  | matchAll (patterns : List PatternSpec)
  | matchAny (patterns : List PatternSpec)
  | greenGrass (through : PatternSpec)
  | slave (through search : PatternSpec) (replace : Option PatternSpec) (mode : Mode)
  | ref

/-- One pattern for a single member, or those of a container. -/
inductive MemberPattern where
  | one (pattern : PatternSpec)
  | many (patterns : List PatternSpec)

end

namespace PatternSpec

def name : PatternSpec → Option String
  | .mk name _ _ => name

def kind : PatternSpec → Option String
  | .mk _ kind _ => kind

def agent : PatternSpec → AgentSpec
  | .mk _ _ agent => agent

def isRef (p : PatternSpec) : Bool :=
  match p.agent with
  | .ref => true
  | _ => false

end PatternSpec

mutual

/-- A pattern and all those inside it, each before those inside it. -/
def PatternSpec.parts : PatternSpec → List PatternSpec
  | .mk name kind agent => .mk name kind agent :: agent.parts

def AgentSpec.parts : AgentSpec → List PatternSpec
  | .standard _ members => membersParts members
  | .star restriction => optionParts restriction
  | .stuff terminus restriction => terminus.parts ++ optionParts restriction
  | .anyNode terminus => terminus.parts
  | .overlay through above => through.parts ++ above.parts
  | .notMatch pattern => pattern.parts
  | .matchAll patterns | .matchAny patterns => listParts patterns
  | .greenGrass through => through.parts
  | .slave through search replace _ => through.parts ++ search.parts ++ optionParts replace
  | .ref => []

def MemberPattern.parts : MemberPattern → List PatternSpec
  | .one pattern => pattern.parts
  | .many patterns => listParts patterns

def optionParts : Option PatternSpec → List PatternSpec
  | none => []
  | some p => p.parts

def listParts : List PatternSpec → List PatternSpec
  | [] => []
  | p :: ps => p.parts ++ listParts ps

def membersParts : List (String × MemberPattern) → List PatternSpec
  | [] => []
  | (_, m) :: ms => m.parts ++ membersParts ms

end

structure Metadata where
  name : String
  description : Option String
  maxRepetitions : Nat
  strict : Bool

/-- A kind as it is written; without a parent it descends from `Node`. -/
structure KindSpec where
  name : String
  parent : Option String
  members : List MemberDecl
  valued : Bool

structure RuleSpec where
  id : String
  description : Option String
  mode : Mode
  search : PatternSpec
  replace : Option PatternSpec
  maxRepetitions : Option Nat

structure RuleFile where
  info : Metadata
  kinds : List KindSpec
  rules : List RuleSpec

namespace RuleSpec

/-- All patterns of a rule, those of the search first. -/
def patterns (r : RuleSpec) : List PatternSpec :=
  r.search.parts ++ optionParts r.replace

/-- The patterns that define a name, in the order in which they are written. -/
def definitions (r : RuleSpec) : List (String × PatternSpec) :=
  r.patterns.filterMap fun p => if p.isRef then none else p.name.map (·, p)

end RuleSpec

end Espalier
