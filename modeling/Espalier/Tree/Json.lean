import Espalier.Data.Json
import Espalier.Tree.Basic

/-! # Trees as data

A tree is a record of its kind, its value and its members, or a list of these three of which the
last ones may be missing.  A member is a tree, a list of trees, or null.
-/

namespace Espalier

/-- Truth values, texts and integers of 64 bits are values. -/
def Value.ofData? : Data → Option Value
  | .bool b => some (.bool b)
  | .int i =>
    if Int64.minValue.toInt ≤ i ∧ i ≤ Int64.maxValue.toInt then some (.int (Int64.ofInt i))
    else none
  | .text s => some (.str s)
  | _ => none

def Value.toData : Value → Data
  | .bool b => .bool b
  | .int i => .int i.toInt
  | .str s => .text s

/-- A value that may be missing. -/
def Value.optional? : Option Data → Option (Option Value)
  | none | some .null => some none
  | some d => (Value.ofData? d).map some

/-- The fields of a tree as they are found. -/
structure TreeParts where
  kinds : List String
  values : List (Option Value)
  members : List (List (String × Branch))

/-- A kind is needed, a value and members may be missing, and none of them may be repeated. -/
def TreeParts.tree? : TreeParts → Option Tree
  | ⟨[kind], [], []⟩ => some (.node kind none [])
  | ⟨[kind], [value], []⟩ => some (.node kind value [])
  | ⟨[kind], [], [members]⟩ => some (.node kind none members)
  | ⟨[kind], [value], [members]⟩ => some (.node kind value members)
  | _ => none

mutual

/-- The tree that data describe. -/
def Tree.ofData? : Data → Option Tree
  | .record fields => (Tree.partsOf? fields).bind TreeParts.tree?
  | .list items => Tree.ofList? items
  | _ => none

/-- The fields of a tree.  Those of other names are passed over. -/
def Tree.partsOf? : List (String × Data) → Option TreeParts
  | [] => some ⟨[], [], []⟩
  | (name, d) :: fields =>
    match Tree.partsOf? fields with
    | none => none
    | some parts =>
      if name = "kind" then
        match d with
        | .text kind => some { parts with kinds := kind :: parts.kinds }
        | _ => none
      else if name = "value" then
        (Value.optional? (some d)).map fun v => { parts with values := v :: parts.values }
      else if name = "members" then
        match d with
        | .record ms =>
          (Tree.membersOf? ms).map fun ms => { parts with members := ms :: parts.members }
        | _ => none
      else some parts

/-- A tree written as a list of its kind, its value and its members. -/
def Tree.ofList? : List Data → Option Tree
  | [.text kind] => some (.node kind none [])
  | [.text kind, value] => (Value.optional? (some value)).map fun v => .node kind v []
  | [.text kind, value, .record fields] =>
    match Value.optional? (some value), Tree.membersOf? fields with
    | some v, some members => some (.node kind v members)
    | _, _ => none
  | _ => none

/-- Members by name; the last one of a name stands. -/
def Tree.membersOf? : List (String × Data) → Option (List (String × Branch))
  | [] => some []
  | (name, d) :: fields =>
    match Branch.ofData? d, Tree.membersOf? fields with
    | some b, some rest =>
      some (if (rest.lookup name).isSome then rest else insertMember name b rest)
    | _, _ => none

/-- A list is a list of trees if all its elements are trees, and otherwise a tree written as a
list. -/
def Branch.ofData? : Data → Option Branch
  | .null => some .absent
  | .list items =>
    match Tree.allOf? items with
    | some trees => some (.many trees)
    | none => (Tree.ofList? items).map .one
  | .record fields => ((Tree.partsOf? fields).bind TreeParts.tree?).map .one
  | _ => none

def Tree.allOf? : List Data → Option (List Tree)
  | [] => some []
  | d :: ds =>
    match Tree.ofData? d with
    | some t => (Tree.allOf? ds).map (t :: ·)
    | none => none

end

/-- The tree that a JSON text describes.  Fields that are no part of a tree are passed over
unread. -/
def Tree.read? (text : String) : Option Tree := do
  match ← Json.read? text with
  | .record fields =>
    let known := fields.filter fun (name, _) => ["kind", "value", "members"].contains name
    if Data.fits Json.depthLimit (.record known) then Tree.ofData? (.record known) else none
  | d => if d.fits Json.depthLimit then Tree.ofData? d else none

mutual

/-- A tree as a record, without a missing value and without members if there are none. -/
def Tree.toData : Tree → Data
  | .node kind value members =>
    .record <| ("kind", .text kind) :: value.toList.map (fun v => ("value", v.toData)) ++
      match members with
      | [] => []
      | m :: ms => [("members", .record (Tree.fieldsOf (m :: ms)))]

def Tree.fieldsOf : List (String × Branch) → List (String × Data)
  | [] => []
  | (name, b) :: ms => (name, b.toData) :: Tree.fieldsOf ms

def Branch.toData : Branch → Data
  | .absent => .null
  | .one t => t.toData
  | .many ts => .list (Tree.listOf ts)

def Tree.listOf : List Tree → List Data
  | [] => []
  | t :: ts => t.toData :: Tree.listOf ts

end

end Espalier
