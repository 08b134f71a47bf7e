/-! # Command lines

A command is followed by options, each by a letter or by a word.  Letters may be joined, and a value
may be joined to its option, or to it by an equals sign.
-/

namespace Espalier

inductive Command where
  | apply (rules tree : String) (output : Option String) (dryRun diff : Bool)
  | check (rules : String)
  | list (rules : String)
deriving DecidableEq, Repr

/-- What a command line may ask for help on. -/
inductive Topic where
  | general
  | apply
  | check
  | list
deriving DecidableEq, Repr

/-- Why there is no command to run. -/
inductive Stop where
  | help (topic : Topic)
  | version
  | misuse
deriving DecidableEq, Repr

namespace Arguments

structure Flag where
  letter : Char
  word : String
  /-- Whether it has a value. -/
  valued : Bool

/-- The options given so far, with their values. -/
abbrev Settings := List (String × String)

def rulesFlag : Flag := ⟨'r', "rules", true⟩

def applyFlags : List Flag :=
  [rulesFlag, ⟨'t', "tree", true⟩, ⟨'o', "output", true⟩, ⟨'n', "dry-run", false⟩,
    ⟨'d', "diff", false⟩]

/-- Take an option down.  None is given twice, and none has an empty value. -/
def set (settings : Settings) (flag : Flag) (value : String) : Except Stop Settings :=
  if (settings.lookup flag.word).isSome || (flag.valued && value.isEmpty) then .error .misuse
  else .ok ((flag.word, value) :: settings)

/-- What stands after one dash, with the option that still needs a value if there is one. -/
def letters (topic : Topic) (flags : List Flag) (settings : Settings) :
    List Char → Except Stop (Settings × Option Flag)
  | [] => .ok (settings, none)
  | c :: cs =>
    if c = 'h' then .error (.help topic)
    else
      match flags.find? (·.letter == c) with
      | none => .error .misuse
      | some flag =>
        if flag.valued then
          match cs with
          | [] => .ok (settings, some flag)
          | '=' :: cs => (set settings flag (String.ofList cs)).map (·, none)
          | cs => (set settings flag (String.ofList cs)).map (·, none)
        else
          match set settings flag "" with
          | .error e => .error e
          | .ok settings => letters topic flags settings cs

/-- What stands after two dashes. -/
def word (topic : Topic) (flags : List Flag) (settings : Settings) (cs : List Char) :
    Except Stop (Settings × Option Flag) :=
  let name := String.ofList (cs.takeWhile (· ≠ '='))
  match flags.find? (·.word == name), cs.dropWhile (· ≠ '=') with
  | some flag, _ :: value =>
    if flag.valued then (set settings flag (String.ofList value)).map (·, none)
    else .error .misuse
  | some flag, [] =>
    if flag.valued then .ok (settings, some flag) else (set settings flag "").map (·, none)
  | none, [] => .error (if name = "help" then .help topic else .misuse)
  | none, _ => .error .misuse

/-- All options of a command.  Two dashes alone end them, and nothing may come after. -/
def settings (topic : Topic) (flags : List Flag) : Settings → List String → Except Stop Settings
  | given, [] => .ok given
  | given, arg :: args =>
    let parsed : Except Stop (Option (Settings × Option Flag)) :=
      match arg.toList with
      | ['-', '-'] => .ok none
      | '-' :: '-' :: cs => (word topic flags given cs).map some
      | '-' :: c :: cs => (letters topic flags given (c :: cs)).map some
      | _ => .error .misuse
    match parsed, args with
    | .error e, _ => .error e
    | .ok none, [] => .ok given
    | .ok none, _ :: _ => .error .misuse
    | .ok (some (given, none)), args => settings topic flags given args
    | .ok (some (_, some _)), [] => .error .misuse
    | .ok (some (given, some flag)), value :: args =>
      if value.startsWith "-" && value ≠ "-" then .error .misuse
      else
        match set given flag value with
        | .error e => .error e
        | .ok given => settings topic flags given args

def required (given : Settings) (flag : String) : Except Stop String :=
  match given.lookup flag with
  | some value => .ok value
  | none => .error .misuse

def topic? : String → Option Topic
  | "apply" => some .apply
  | "check" => some .check
  | "list" => some .list
  | _ => none

/-- The command that a command line asks for. -/
def command : List String → Except Stop Command
  | [] => .error .misuse
  | "apply" :: args => do
    let given ← settings .apply applyFlags [] args
    return .apply (← required given "rules") (← required given "tree") (given.lookup "output")
      (given.lookup "dry-run").isSome (given.lookup "diff").isSome
  | "check" :: args => do
    return .check (← required (← settings .check [rulesFlag] [] args) "rules")
  | "list" :: args => do
    return .list (← required (← settings .list [rulesFlag] [] args) "rules")
  | ["help"] => .error (.help .general)
  | ["help", name] =>
    match topic? name with
    | some topic => .error (.help topic)
    | none => .error .misuse
  | arg :: _ =>
    match arg.toList with
    | '-' :: 'h' :: _ => .error (.help .general)
    | '-' :: 'V' :: _ => .error .version
    | cs =>
      if cs = "--help".toList then .error (.help .general)
      else if cs = "--version".toList then .error .version
      else .error .misuse

end Arguments

end Espalier
