import Espalier.Forest.Basic
import Espalier.Text.Quoted

/-! # Subtrees in one line -/

namespace Espalier

def Value.render : Value → String
  | .bool true => "true"
  | .bool false => "false"
  | .int i => toString i.toInt
  | .str s => Text.quote s

/-- A member: a missing child is an underscore, sequences stand in brackets and collections in
braces. -/
def Member.render {α : Type} (child : α → String) : Member α → String
  | .single none => "_"
  | .single (some c) => child c
  | .sequence items => "[" ++ " ".intercalate (items.map child) ++ "]"
  | .collection items => "\x7b" ++ " ".intercalate (items.map child) ++ "\x7d"

/-- The subtree at `id`: its kind, its value if it has one, and its members. -/
def Forest.render {s : Schema} (f : Forest s) (id : NodeId) : String :=
  let n := f.node id
  let parts := s.name n.kind :: n.value.toList.map Value.render ++
    n.members.map (Member.render fun c => f.render c.val)
  "(" ++ " ".intercalate parts ++ ")"
termination_by id
decreasing_by exact c.isLt

end Espalier
