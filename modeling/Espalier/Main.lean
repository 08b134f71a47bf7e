import Espalier.Command.Run

/-! # The program -/

namespace Espalier

/-- What an error of the machine says of a file.  Its codes may come with either sign. -/
def FileError.ofError : IO.Error → FileError
  | .noFileOrDirectory .. => .missing
  | e@(.inappropriateType _ code _) =>
    if code = 20 ∨ 0 - code = 20 then .notFolder
    else if code = 21 ∨ 0 - code = 21 then .isFolder
    else .other (toString e)
  | e@(.invalidArgument _ code _) =>
    if code = 36 ∨ 0 - code = 36 then .nameTooLong else .other (toString e)
  | e => .other (toString e)

def FileKind.ofType : IO.FS.FileType → FileKind
  | .file => .file
  | .dir => .folder
  | _ => .device

/-- Run a script on the machine. -/
def Script.perform {α : Type} : Script α → IO α
  | .done a => pure a
  | .look path next => do
    let kind ← try
        pure (some (FileKind.ofType (← (← IO.FS.realPath path).metadata).type))
      catch _ => pure none
    (next kind).perform
  | .list path next => do
    let entries ← (← IO.FS.realPath path).readDir
    let kinds ← entries.toList.mapM fun entry => do
      return (entry.fileName, FileKind.ofType (← entry.path.metadata).type)
    (next kinds).perform
  | .read path next => do
    let text ← try
        let bytes ← IO.FS.readBinFile path
        pure (match String.fromUTF8? bytes with
          | some text => .ok text
          | none => .error .notText)
      catch e => pure (.error (.ofError e))
    (next text).perform
  | .write path text next => do
    let result ← try
        IO.FS.writeFile path text
        pure (.ok ())
      catch e => pure (.error (.ofError e))
    (next result).perform
  | .print channel text next => do
    match channel with
    | .output => IO.print text
    | .errors => IO.eprint text
    next.perform

end Espalier

def main (args : List String) : IO UInt32 := do
  return (← (Espalier.runCommand args).perform).toUInt32
