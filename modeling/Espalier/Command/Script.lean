/-! # Scripts

What a command does is a script: it looks at files, writes them and prints, and goes on with what it
has learnt.  A script is run on the machine, or on files that are given as a value.
-/

namespace Espalier

inductive FileKind where
  | file
  | folder
  | device
deriving DecidableEq, Repr

inductive FileError where
  | missing
  | notFolder
  | isFolder
  | nameTooLong
  /-- The bytes of the file are no text. -/
  | notText
  | other (message : String)
deriving DecidableEq, Repr

def FileError.message : FileError → String
  | .missing => "No such file or directory (os error 2)"
  | .notFolder => "Not a directory (os error 20)"
  | .isFolder => "Is a directory (os error 21)"
  | .nameTooLong => "File name too long (os error 36)"
  | .notText => "stream did not contain valid UTF-8"
  | .other message => message

/-- Where a script prints. -/
inductive Channel where
  | output
  | errors
deriving DecidableEq, Repr

inductive Script (α : Type) where
  | done (a : α)
  /-- What there is at a path. -/
  | look (path : String) (next : Option FileKind → Script α)
  /-- What there is in a folder, in any order. -/
  | list (path : String) (next : List (String × FileKind) → Script α)
  | read (path : String) (next : Except FileError String → Script α)
  | write (path text : String) (next : Except FileError Unit → Script α)
  | print (channel : Channel) (text : String) (next : Script α)

namespace Script

variable {α β : Type}

def bind : Script α → (α → Script β) → Script β
  | .done a, k => k a
  | .look path next, k => .look path fun r => (next r).bind k
  | .list path next, k => .list path fun r => (next r).bind k
  | .read path next, k => .read path fun r => (next r).bind k
  | .write path text next, k => .write path text fun r => (next r).bind k
  | .print channel text next, k => .print channel text (next.bind k)

instance : Monad Script where
  pure := .done
  bind := .bind

def say (text : String) : Script Unit := .print .output text (.done ())

def sayLine (text : String) : Script Unit := say (text ++ "\n")

def complainLine (text : String) : Script Unit := .print .errors (text ++ "\n") (.done ())

end Script

end Espalier
