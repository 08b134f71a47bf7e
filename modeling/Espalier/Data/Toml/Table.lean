import Espalier.Data.Basic

/-! # TOML tables

A table grows by headers and by assignments to keys of several parts.  It may be added to as long as
it has not been defined as a whole: a table named only as part of a header may still get a header of
its own, and one named only in keys may get more keys.
-/

namespace Espalier.Toml

mutual

inductive Table where
  /-- `implied` if the table has been named only on the way to another one, `dotted` if by keys. -/
  | mk (implied dotted : Bool) (entries : List (String × Item))

inductive Item where
  /-- A value is complete. -/
  | value (d : Data)
  | table (t : Table)
  /-- The tables of a repeated header, last first. -/
  | tables (last : Table) (earlier : List Table)

end

namespace Table

def empty : Table := ⟨false, false, []⟩

def isImplied : Table → Bool
  | .mk implied _ _ => implied

def isDotted : Table → Bool
  | .mk _ dotted _ => dotted

def entries : Table → List (String × Item)
  | .mk _ _ entries => entries

def get? (t : Table) (key : String) : Option Item := t.entries.lookup key

/-- Set an entry, in its place if it is there already. -/
def setEntry (key : String) (item : Item) : List (String × Item) → List (String × Item)
  | [] => [(key, item)]
  | (k, i) :: es => if k = key then (key, item) :: es else (k, i) :: setEntry key item es

def set (t : Table) (key : String) (item : Item) : Table :=
  .mk t.isImplied t.isDotted (setEntry key item t.entries)

/-- Change the table at the end of a path.  Missing tables on the way are made; of a repeated header
the last table is meant.  Keys, where `dotted`, do not lead through tables with a header. -/
def update (dotted : Bool) (change : Table → Option Table) : List String → Table → Option Table
  | [], t => change t
  | key :: path, t =>
    match t.get? key with
    | none => (update dotted change path ⟨true, dotted, []⟩).map fun u => t.set key (.table u)
    | some (.value _) => none
    | some (.table u) =>
      if dotted && !u.isImplied then none
      else (update dotted change path u).map fun u => t.set key (.table u)
    | some (.tables last earlier) =>
      (update dotted change path last).map fun u => t.set key (.tables u earlier)

/-- Assign a value to a key of one or more parts, all but the last of which are in `path`. -/
def assign (path : List String) (key : String) (d : Data) (t : Table) : Option Table :=
  t.update true
    (fun u =>
      if u.isDotted == path.isEmpty || (u.get? key).isSome then none
      else some (u.set key (.value d)))
    path

/-- Begin the table of a header. -/
def openTable (path : List String) (key : String) (t : Table) : Option Table :=
  t.update false
    (fun u =>
      match u.get? key with
      | none => some (u.set key (.table empty))
      | some (.table (.mk true false entries)) =>
        some (u.set key (.table (.mk false false entries)))
      | some _ => none)
    path

/-- Begin another table of a repeated header. -/
def appendTable (path : List String) (key : String) (t : Table) : Option Table :=
  t.update false
    (fun u =>
      match u.get? key with
      | none => some (u.set key (.tables empty []))
      | some (.tables last earlier) => some (u.set key (.tables empty (last :: earlier)))
      | some _ => none)
    path

end Table

mutual

def Table.toData : Table → Data
  | .mk _ _ entries => .record (entriesToData entries)

def entriesToData : List (String × Item) → List (String × Data)
  | [] => []
  | (key, item) :: es => (key, item.toData) :: entriesToData es

def Item.toData : Item → Data
  | .value d => d
  | .table t => t.toData
  | .tables last earlier => .list (tablesToData earlier [last.toData])

/-- Tables that are given last first, before those of `later`. -/
def tablesToData : List Table → List Data → List Data
  | [], later => later
  | t :: ts, later => tablesToData ts (t.toData :: later)

end

/-- A line of a document.  Keys are given by all parts but the last, and the last. -/
inductive Statement where
  | header (path : List String) (key : String)
  | repeated (path : List String) (key : String)
  | assignment (path : List String) (key : String) (d : Data)

/-- A document so far: all of it, and where the assignments go that come next. -/
structure Document where
  root : Table
  here : List String

def Document.add (doc : Document) : Statement → Option Document
  | .header path key => (doc.root.openTable path key).map (⟨·, path ++ [key]⟩)
  | .repeated path key => (doc.root.appendTable path key).map (⟨·, path ++ [key]⟩)
  | .assignment path key d =>
    (doc.root.update false (Table.assign path key d) doc.here).map fun root => { doc with root }

/-- What the statements of a document say. -/
def document? (statements : List Statement) : Option Data :=
  (statements.foldlM Document.add ⟨.empty, []⟩).map fun doc => doc.root.toData

end Espalier.Toml
