import Espalier.Command.Script

/-! # Files as a value

A disk holds the files and folders of a machine, one of which is the folder that commands run in.
-/

namespace Espalier

/-- Files and folders by their paths from the root, innermost part first. -/
structure Disk where
  home : List String
  files : List (List String × ByteArray)
  folders : List (List String)

namespace Disk

/-- A disk with nothing in the folder that commands run in. -/
def empty (home : List String) : Disk := ⟨home, [], [home]⟩

/-- The device that is always empty: what is written to it is gone. -/
def sink : List String := ["null", "dev"]

def isFile (d : Disk) (path : List String) : Bool := (d.files.lookup path).isSome

/-- Folders are there by themselves or by what is in them. -/
def isFolder (d : Disk) (path : List String) : Bool :=
  path.isEmpty || d.folders.any (path.isSuffixOf ·) ||
    (sink :: d.files.map (·.1)).any fun p => path.isSuffixOf p && p ≠ path

def kind? (d : Disk) (path : List String) : Option FileKind :=
  if path = sink then some .device
  else if d.isFile path then some .file
  else if d.isFolder path then some .folder
  else none

/-- How many bytes a name may have. -/
def nameLimit : Nat := 255

/-- How many bytes a path may have. -/
def pathLimit : Nat := 4095

/-- Follow the parts of a path from the folder `here`.  There is nothing above the root. -/
def follow (d : Disk) : (here parts : List String) → Except FileError (List String)
  | here, [] => .ok here
  | here, part :: parts =>
    match d.kind? here with
    | none => .error .missing
    | some .file | some .device => .error .notFolder
    | some .folder =>
      if part = "" ∨ part = "." then d.follow here parts
      else if part = ".." then d.follow here.tail parts
      else if nameLimit < part.utf8ByteSize then .error .nameTooLong
      else d.follow (part :: here) parts

/-- The folder that a path starts from. -/
def start (d : Disk) (path : String) : List String := if path.startsWith "/" then [] else d.home

/-- Where a path leads to, whether there is something or not. -/
def locate (d : Disk) (path : String) : Except FileError (List String) :=
  if pathLimit < path.utf8ByteSize then .error .nameTooLong
  else d.follow (d.start path) (path.splitOn "/")

def look (d : Disk) (path : String) : Option FileKind :=
  match d.locate path with
  | .error _ => none
  | .ok p => d.kind? p

def names (d : Disk) (path : String) : List (String × FileKind) :=
  match d.locate path with
  | .error _ => []
  | .ok folder =>
    let below := (d.files.map (·.1) ++ d.folders).filterMap fun p =>
      if folder.isSuffixOf p then (p.take (p.length - folder.length)).getLast? else none
    below.eraseDups.filterMap fun name => (d.kind? (name :: folder)).map (name, ·)

def read (d : Disk) (path : String) : Except FileError String :=
  match d.locate path with
  | .error e => .error e
  | .ok p =>
    match d.kind? p with
    | none => .error .missing
    | some .folder => .error .isFolder
    | some .device => .ok ""
    | some .file =>
      match (d.files.lookup p).bind String.fromUTF8? with
      | some text => .ok text
      | none => .error .notText

/-- Put a file at a path. -/
def put (d : Disk) (path : List String) (bytes : ByteArray) : Disk :=
  { d with files := (path, bytes) :: d.files.filter fun (p, _) => p ≠ path }

/-- Write a text to a file in a folder that is there. -/
def write (d : Disk) (path text : String) : Except FileError Disk :=
  if pathLimit < path.utf8ByteSize then .error .nameTooLong
  else
    let parts := (path.splitOn "/").reverse
    match parts.dropWhile (· = "") with
    | [] => .error .isFolder
    | name :: above =>
      match d.follow (d.start path) above.reverse with
      | .error e => .error e
      | .ok folder =>
        match d.kind? folder with
        | none => .error .missing
        | some .file | some .device => .error .notFolder
        | some .folder =>
          if parts.head? = some "" ∨ name = "." ∨ name = ".." then .error .isFolder
          else if nameLimit < name.utf8ByteSize then .error .nameTooLong
          else
            match d.kind? (name :: folder) with
            | some .folder => .error .isFolder
            | some .device => .ok d
            | some .file | none => .ok (d.put (name :: folder) text.toUTF8)

/-- The files below the folder that commands run in, by their paths from there. -/
def homeFiles (d : Disk) : List (List String × ByteArray) :=
  d.files.filterMap fun (path, bytes) =>
    if d.home.isSuffixOf path then some (path.take (path.length - d.home.length), bytes) else none

end Disk

/-- A disk and what has been printed. -/
structure Desk where
  disk : Disk
  output : String
  errors : String

/-- Run a script on files that are given as a value. -/
def Script.runOn {α : Type} : Script α → Desk → α × Desk
  | .done a, desk => (a, desk)
  | .look path next, desk => (next (desk.disk.look path)).runOn desk
  | .list path next, desk => (next (desk.disk.names path)).runOn desk
  | .read path next, desk => (next (desk.disk.read path)).runOn desk
  | .write path text next, desk =>
    match desk.disk.write path text with
    | .ok disk => (next (.ok ())).runOn { desk with disk }
    | .error e => (next (.error e)).runOn desk
  | .print .output text next, desk => next.runOn { desk with output := desk.output ++ text }
  | .print .errors text next, desk => next.runOn { desk with errors := desk.errors ++ text }

end Espalier
