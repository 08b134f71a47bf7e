/-! # Reports of failed commands -/

namespace Espalier

/-- Why a command failed, with what is behind it, outermost first. -/
structure Report where
  message : String
  causes : List String

namespace Report

/-- A cause.  Where there are several they are numbered, and the further lines of each are put below
its first one. -/
def renderCause (number : Option Nat) (cause : String) : String :=
  match number with
  | none => "    " ++ "\n    ".intercalate (cause.splitOn "\n")
  | some n =>
    "".pushn ' ' (5 - (toString n).length) ++ s!"{n}: " ++
      "\n       ".intercalate (cause.splitOn "\n")

def render (r : Report) : String :=
  let causes := match r.causes with
    | [] => []
    | [cause] => [renderCause none cause]
    | causes => causes.zipIdx.map fun (cause, n) => renderCause (some n) cause
  let below := if causes.isEmpty then "" else "\n\nCaused by:\n" ++ "\n".intercalate causes
  "Error: " ++ r.message ++ below

end Report

end Espalier
