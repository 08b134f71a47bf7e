import Espalier.Data.Toml.Reader
import Espalier.RuleFile.Compile
import Espalier.RuleFile.Data
import Espalier.RuleFile.Validation

/-! # Loading rule files

A rule file is a TOML document.  It is read, then checked as a whole, then compiled.
-/

namespace Espalier

/-- Why a rule file is of no use. -/
inductive LoadError where
  | malformed
  | invalid (issues : List Issue)
  | compile (e : CompileError)

/-- All issues of a file, a line for each. -/
def Issue.messages (issues : List Issue) : String := "\n".intercalate (issues.map Issue.message)

/-- The words for an error, with the path of the file if it is known. -/
def LoadError.message (path : Option String) (e : LoadError) : String :=
  let place := match path with
    | none => ""
    | some path => s!" ({path})"
  match e with
  | .malformed => s!"failed to parse rule file TOML{place}"
  | .invalid issues => s!"invalid rule file{place}:\n" ++ Issue.messages issues
  | .compile e => s!"cannot compile rule file{place}: {e.message}"

/-- The error of a part of the file that is behind a compile error. -/
def CompileError.cause? : CompileError → Option String
  | .kind _ e => some e.message
  | .pattern _ e => some e.message
  | .unknownName .. => none
  | .cycle .. => none

/-- What is behind an error, outermost first. -/
def LoadError.causes : LoadError → List String
  | .malformed => []
  | .invalid issues => [Issue.messages issues]
  | .compile e => e.message :: e.cause?.toList

/-- A rule file that has no issues. -/
def RuleFile.checked (file : RuleFile) : Except LoadError RuleFile :=
  match file.issues with
  | [] => .ok file
  | issues => .error (.invalid issues)

/-- Read and check a rule file. -/
def RuleFile.load (text : String) : Except LoadError RuleFile :=
  match (Toml.read? text).bind (RuleFile.ofData? .toml) with
  | none => .error .malformed
  | some file => file.checked

/-- Read, check and compile a rule file. -/
def RuleSet.load (text : String) : Except LoadError RuleSet :=
  match RuleFile.load text with
  | .error e => .error e
  | .ok file =>
    match file.compile with
    | .error e => .error (.compile e)
    | .ok set => .ok set

end Espalier
