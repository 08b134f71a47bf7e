import Espalier.RuleFile.Basic
import Espalier.Tree.Json

/-! # Rule files as data

A structure is a record of its fields or a list of them in a fixed order; fields at the end of the
list may be missing, and fields of a record that are not asked for are passed over.  So are, in
TOML, the elements of a list that come after the last field.  A pattern is always a record, which
holds the fields of its agent, too.
-/

namespace Espalier

/-- What data have been read from. -/
inductive Format where
  | json
  | toml
deriving DecidableEq, Repr

namespace Data

/-- The fields of a structure, in the order of `names`.  A date has none of them. -/
def fields? (format : Format) (names : List String) : Data → Option (List (Option Data))
  | .record fields => some (names.map (field? fields))
  | .list items =>
    if items.length ≤ names.length ∨ format = .toml then
      some ((items.take names.length).map some ++ List.replicate (names.length - items.length) none)
    else none
  | .date => some (names.map fun _ => none)
  | _ => none

def text? : Data → Option String
  | .text s => some s
  | _ => none

def bool? : Data → Option Bool
  | .bool b => some b
  | _ => none

/-- An unsigned integer of 64 bits. -/
def natural? : Data → Option Nat
  | .int i => if 0 ≤ i ∧ i < UInt64.size then some i.toNat else none
  | _ => none

def list? {α : Type} (item? : Data → Option α) : Data → Option (List α)
  | .list items => items.mapM item?
  | _ => none

def isNull : Data → Bool
  | .null => true
  | _ => false

/-- Whether there is nothing in a list or a record. -/
def isVoid : Data → Bool
  | .list [] | .record [] => true
  | _ => false

/-- One of a number of words, which may be the only field of a record if its value says nothing. -/
def word? (saysNothing : Data → Bool) : Data → Option String
  | .text s => some s
  | .record [(s, d)] => if saysNothing d then some s else none
  | _ => none

/-- A word of a structure. -/
def plainWord? : Format → Data → Option String
  | .json => word? isNull
  | .toml => word? isVoid

/-- A word among the fields of an agent. -/
def agentWord? : Data → Option String :=
  word? fun
    | .null | .record [] => true
    | _ => false

/-- A field that has to be there. -/
def required? {α : Type} (read? : Data → Option α) (d : Option Data) : Option α := d.bind read?

/-- A field that may be missing. -/
def default? {α : Type} (a : α) (read? : Data → Option α) : Option Data → Option α
  | none => some a
  | some d => read? d

/-- A field that may be missing or null. -/
def optional? {α : Type} (read? : Data → Option α) : Option Data → Option (Option α)
  | none | some .null => some none
  | some d => (read? d).map some

/-- What lies inside other data. -/
abbrev Inside (d : Data) := { c : Data // sizeOf c < sizeOf d }

/-- The fields of a record. -/
def fieldsInside (fields : List (String × Data)) : List (String × Inside (.record fields)) :=
  fields.attach.map fun ⟨(name, c), h⟩ => (name, ⟨c, by
    have := List.sizeOf_lt_of_mem h
    simp only [Prod.mk.sizeOf_spec, record.sizeOf_spec] at this ⊢
    omega⟩)

namespace Inside

variable {d : Data}

def isNull (c : Inside d) : Bool := c.val.isNull

/-- The elements of a list inside other data. -/
def items? (c : Inside d) : Option (List (Inside d)) :=
  match h : c.val with
  | .list items => some <| items.attach.map fun ⟨x, hx⟩ => ⟨x, by
      have := List.sizeOf_lt_of_mem hx
      have := c.property
      simp only [h, list.sizeOf_spec] at this
      omega⟩
  | _ => none

/-- The fields of a record inside other data. -/
def fields? (c : Inside d) : Option (List (String × Inside d)) :=
  match h : c.val with
  | .record fields => some <| (fieldsInside fields).map fun (name, x) =>
      (name, ⟨x.val, Nat.lt_trans x.property (h ▸ c.property)⟩)
  | _ => none

end Inside

end Data

open Data

def MemberDecl.ofData? (format : Format) (d : Data) : Option MemberDecl :=
  match d.fields? format ["name", "category"] with
  | some [name, category] => do
    return {
      name := ← required? text? name
      category := ← required? (plainWord? format) category >>= Category.ofWord? }
  | _ => none

def KindSpec.ofData? (format : Format) (d : Data) : Option KindSpec :=
  match d.fields? format ["name", "parent", "members", "value"] with
  | some [name, parent, members, value] => do
    return {
      name := ← required? text? name
      parent := ← optional? text? parent
      members := ← default? [] (list? (MemberDecl.ofData? format)) members
      valued := ← default? false bool? value }
  | _ => none

/-- The names of agents, in the order of their numbers. -/
def AgentSpec.words : List String :=
  ["standard", "star", "stuff", "any-node", "overlay", "not-match", "match-all", "match-any",
    "green-grass", "slave", "ref"]

/-- The name of an agent, which JSON may give by its number. -/
def AgentSpec.word? (format : Format) : Data → Option String
  | .text s => some s
  | .int i => if format = .json ∧ 0 ≤ i then words[i.toNat]? else none
  | _ => none

/-- The pattern that data describe. -/
def PatternSpec.ofData? (format : Format) (d : Data) : Option PatternSpec :=
  match d with
  | .record fields => do
    let inside := (fieldsInside fields).reverse
    let field (name : String) : Option Data := (inside.lookup name).map Subtype.val
    let pattern (name : String) : Option PatternSpec :=
      (inside.lookup name).bind fun c => ofData? format c.val
    let option (name : String) : Option (Option PatternSpec) :=
      match inside.lookup name with
      | none => some none
      | some c => if c.isNull then some none else (ofData? format c.val).map some
    let list (name : String) : Option (List PatternSpec) :=
      (inside.lookup name).bind fun c =>
        c.items?.bind fun items => items.mapM fun x => ofData? format x.val
    let member (c : Inside (.record fields)) : Option MemberPattern :=
      match c.items? with
      | some items => do return .many (← items.mapM fun x => ofData? format x.val)
      | none => (ofData? format c.val).map .one
    let members : Option (List (String × MemberPattern)) :=
      match inside.lookup "members" with
      | none => some []
      | some c => do
        (← c.fields?).foldlM (fun ms (name, x) => do return insertMember name (← member x) ms) []
    let agent : Option AgentSpec :=
      match (field "agent").bind (AgentSpec.word? format) with
      | some "standard" => do
        return .standard (← Value.optional? (field "value")) (← members)
      | some "star" => do return .star (← option "restriction")
      | some "stuff" => do return .stuff (← pattern "terminus") (← option "restriction")
      | some "any-node" => do return .anyNode (← pattern "terminus")
      | some "overlay" => do return .overlay (← pattern "through") (← pattern "overlay")
      | some "not-match" => do return .notMatch (← pattern "pattern")
      | some "match-all" => do return .matchAll (← list "patterns")
      | some "match-any" => do return .matchAny (← list "patterns")
      | some "green-grass" => do return .greenGrass (← pattern "through")
      | some "slave" => do
        let mode ← default? .search (fun d => d.agentWord? >>= Mode.ofWord?) (field "mode")
        return .slave (← pattern "through") (← pattern "search") (← option "replace") mode
      | some "ref" => some .ref
      | _ => none
    return .mk (← optional? text? (field "name")) (← optional? text? (field "kind")) (← agent)
  | _ => none
termination_by sizeOf d
decreasing_by all_goals first | exact c.property | exact x.property

def RuleSpec.ofData? (format : Format) (d : Data) : Option RuleSpec :=
  match d.fields? format ["id", "description", "mode", "search", "replace", "max_repetitions"] with
  | some [id, description, mode, search, replace, cap] => do
    return {
      id := ← required? text? id
      description := ← optional? text? description
      mode := ← default? .search (fun d => plainWord? format d >>= Mode.ofWord?) mode
      search := ← required? (PatternSpec.ofData? format) search
      replace := ← optional? (PatternSpec.ofData? format) replace
      maxRepetitions := ← optional? natural? cap }
  | _ => none

/-- The metadata of a file that has none. -/
def Metadata.standard : Metadata := ⟨"", none, 1000, false⟩

def Metadata.ofData? (format : Format) (d : Data) : Option Metadata :=
  match d.fields? format ["name", "description", "max_repetitions", "strict"] with
  | some [name, description, cap, strict] => do
    return {
      name := ← default? "" text? name
      description := ← optional? text? description
      maxRepetitions := ← default? Metadata.standard.maxRepetitions natural? cap
      strict := ← default? false bool? strict }
  | _ => none

/-- The rule file that data describe. -/
def RuleFile.ofData? (format : Format) (d : Data) : Option RuleFile :=
  match d.fields? format ["meta", "kinds", "rules"] with
  | some [info, kinds, rules] => do
    return {
      info := ← default? .standard (Metadata.ofData? format) info
      kinds := ← default? [] (list? (KindSpec.ofData? format)) kinds
      rules := ← default? [] (list? (RuleSpec.ofData? format)) rules }
  | _ => none

end Espalier
