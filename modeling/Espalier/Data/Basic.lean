/-! # Structured data

The common shape of what JSON and TOML texts say.
-/

namespace Espalier

inductive Data where
  | null
  | bool (b : Bool)
  | int (i : Int)
  /-- A number that is not written as an integer. -/
  | real
  | date
  | text (s : String)
  | list (items : List Data)
  /-- Named fields in the order in which they are written. -/
  | record (fields : List (String × Data))
  /-- A scalar that is written correctly but stands for nothing, which is an error only where it is
  read. -/
  | malformed

namespace Data

instance : Inhabited Data := ⟨.null⟩

mutual

/-- Whether all scalars stand for something, and lists and records are at most `depth` deep. -/
def fits : (depth : Nat) → Data → Bool
  | _, .malformed => false
  | depth, .list items => 0 < depth && fitsAll (depth - 1) items
  | depth, .record fields => 0 < depth && fitsFields (depth - 1) fields
  | _, _ => true

def fitsAll : (depth : Nat) → List Data → Bool
  | _, [] => true
  | depth, d :: ds => fits depth d && fitsAll depth ds

def fitsFields : (depth : Nat) → List (String × Data) → Bool
  | _, [] => true
  | depth, (_, d) :: fs => fits depth d && fitsFields depth fs

end

/-- The last field of that name. -/
def field? (fields : List (String × Data)) (name : String) : Option Data :=
  fields.reverse.lookup name

end Data

end Espalier
