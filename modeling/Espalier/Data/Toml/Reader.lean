import Espalier.Data.Toml.Scalar
import Espalier.Data.Toml.Table

/-! # Reading TOML

The reader goes over a document once, a symbol at a time, with the lists and tables that are still
open on a stack.
-/

namespace Espalier.Toml

/-- A character or the end of a line, with or without a carriage return. -/
inductive Symbol where
  | char (c : Char)
  | newline (carriage : Bool)

def symbols : List Char → List Symbol
  | [] => []
  | '\r' :: '\n' :: cs => .newline true :: symbols cs
  | '\n' :: cs => .newline false :: symbols cs
  | c :: cs => .char c :: symbols cs

/-- What a key names. -/
inductive Place where
  | statement
  | header
  | repeated
  | inline

/-- What a quoted text is for. -/
inductive Goal where
  /-- The next part of a key. -/
  | key (place : Place) (parts : List String)
  | value

/-- What a value is for.  The parts of a key are held last first. -/
inductive Frame where
  | assignment (key : List String)
  | list (items : List Data)
  | table (t : Table) (key : List String)

/-- Where a comment stands. -/
inductive Back where
  | lineEnd
  | item
  | itemNext
  | field
  | equals
  | value
  | fieldNext

inductive Mode where
  /-- A statement may begin. -/
  | line
  /-- A statement is over. -/
  | lineEnd
  /-- One bracket of a header has been read. -/
  | bracket
  /-- One bracket at the end of a repeated header has been read. -/
  | closing (parts : List String)
  /-- A part of a key has to come. -/
  | key (place : Place) (parts : List String)
  | bareKey (place : Place) (parts : List String) (chars : List Char)
  /-- A part of a key is over. -/
  | keyNext (place : Place) (parts : List String)
  /-- A key of an inline table is over, and its line too. -/
  | equals
  | value
  /-- An element of a list, or its end, has to come. -/
  | item
  | itemNext
  /-- A key of an inline table, or its end, has to come. -/
  | field
  | fieldNext
  | comment (back : Back)
  /-- One quote, or two, have been read. -/
  | opening (goal : Goal) (quote : Char) (two : Bool)
  | text (goal : Goal) (quote : Char) (chars : List Char)
  /-- A text of several lines has begun; a line that ends here is no part of it. -/
  | blockStart (quote : Char)
  /-- In a text of several lines, with `run` quotes just read. -/
  | block (quote : Char) (chars : List Char) (run : Nat)
  | escape (goal : Goal) (several : Bool) (chars : List Char)
  | code (goal : Goal) (several : Bool) (chars : List Char) (left value : Nat)
  /-- Blanks after a backslash in a text of several lines are dropped, if a line ends among them. -/
  | trim (chars : List Char) (ended : Bool)
  | scalar (chars : List Char)
  /-- A date and a space have been read. -/
  | gap (chars : List Char)

structure State where
  statements : List Statement
  frames : List Frame
  mode : Mode

namespace State

def enter (st : State) (mode : Mode) : Option State := some { st with mode }

def isBlank (c : Char) : Bool := c == ' ' || c == '\t'

/-- Tabs are the only controls in texts and comments. -/
def isPlain (c : Char) : Bool := c == '\t' || (0x20 ≤ c.toNat && c.toNat ≠ 0x7f)

def isBare (c : Char) : Bool := c.isAlphanum || c == '_' || c == '-'

def isScalar (c : Char) : Bool := isBare c || c == '+' || c == '.' || c == ':'

/-- How many lists and inline tables may be open, and how many parts a key may have. -/
def depthLimit : Nat := 80

def depth (st : State) : Nat :=
  (st.frames.filter fun
    | .assignment _ => false
    | _ => true).length

/-- A value has been read. -/
def endValue (st : State) (d : Data) : Option State :=
  match st.frames with
  | [.assignment (key :: path)] =>
    some ⟨.assignment path.reverse key d :: st.statements, [], .lineEnd⟩
  | .list items :: frames =>
    some { st with frames := .list (d :: items) :: frames, mode := .itemNext }
  | .table t (key :: path) :: frames =>
    (t.assign path.reverse key d).map fun t =>
      { st with frames := .table t [] :: frames, mode := .fieldNext }
  | _ => none

def closeList (st : State) : Option State :=
  match st.frames with
  | .list items :: frames => { st with frames }.endValue (.list items.reverse)
  | _ => none

def closeTable (st : State) : Option State :=
  match st.frames with
  | .table t _ :: frames => { st with frames }.endValue t.toData
  | _ => none

/-- The first character of a value. -/
def beginValue (st : State) (c : Char) : Option State :=
  if c = '"' ∨ c = '\'' then st.enter (.opening .value c false)
  else if c = '[' ∨ c = '{' then
    if st.depth < depthLimit then
      if c = '[' then some { st with frames := .list [] :: st.frames, mode := .item }
      else some { st with frames := .table .empty [] :: st.frames, mode := .field }
    else none
  else if isScalar c then st.enter (.scalar [c])
  else none

/-- The first character of a part of a key. -/
def beginKey (st : State) (place : Place) (parts : List String) (c : Char) : Option State :=
  if depthLimit ≤ parts.length then none
  else if c = '"' ∨ c = '\'' then st.enter (.opening (.key place parts) c false)
  else if isBare c then st.enter (.bareKey place parts [c])
  else none

/-- Whether the value to come belongs to a key of an inline table. -/
def inTable (st : State) : Bool :=
  match st.frames with
  | .table .. :: _ => true
  | _ => false

/-- A key of an inline table is over. -/
def endKey (st : State) (parts : List String) (mode : Mode) : Option State :=
  match st.frames with
  | .table t _ :: frames => some { st with frames := .table t parts :: frames, mode }
  | _ => none

/-- A symbol after a part of a key. -/
def afterKey (st : State) (place : Place) (parts : List String) (sym : Symbol) : Option State :=
  match sym with
  | .newline _ =>
    match place with
    | .inline => st.endKey parts .equals
    | _ => none
  | .char c =>
    if isBlank c then st.enter (.keyNext place parts)
    else if c = '.' then st.enter (.key place parts)
    else
      match place, parts with
      | .statement, parts =>
        if c = '=' then some { st with frames := [.assignment parts], mode := .value } else none
      | .inline, parts =>
        if c = '=' then st.endKey parts .value
        else if c = '#' then st.endKey parts (.comment .equals)
        else none
      | .header, key :: path =>
        if c = ']' then
          some { st with statements := .header path.reverse key :: st.statements, mode := .lineEnd }
        else none
      | .repeated, parts => if c = ']' then st.enter (.closing parts) else none
      | _, [] => none

/-- A quoted text is over. -/
def endText (st : State) (goal : Goal) (chars : List Char) : Option State :=
  let s := String.ofList chars.reverse
  match goal with
  | .key place parts => st.enter (.keyNext place (s :: parts))
  | .value => st.endValue (.text s)

/-- A symbol after a value, or after the end of a statement. -/
def afterValue (st : State) (sym : Symbol) : Option State :=
  match st.mode, sym with
  | .lineEnd, .newline _ => st.enter .line
  | .lineEnd, .char c =>
    if isBlank c then some st else if c = '#' then st.enter (.comment .lineEnd) else none
  | .itemNext, .newline _ => some st
  | .itemNext, .char c =>
    if isBlank c then some st
    else if c = '#' then st.enter (.comment .itemNext)
    else if c = ',' then st.enter .item
    else if c = ']' then st.closeList
    else none
  | .fieldNext, .newline _ => some st
  | .fieldNext, .char c =>
    if isBlank c then some st
    else if c = '#' then st.enter (.comment .fieldNext)
    else if c = ',' then st.enter .field
    else if c = '}' then st.closeTable
    else none
  | _, _ => none

/-- A symbol after a quoted text. -/
def afterText (st : State) (sym : Symbol) : Option State :=
  match st.mode, sym with
  | .keyNext place parts, sym => st.afterKey place parts sym
  | _, sym => st.afterValue sym

/-- The character for which a letter after a backslash stands. -/
def escaped? : Char → Option Char
  | 'b' => some '\x08'
  | 't' => some '\t'
  | 'n' => some '\n'
  | 'f' => some '\x0c'
  | 'r' => some '\r'
  | 'e' => some '\x1b'
  | '"' => some '"'
  | '\\' => some '\\'
  | _ => none

def codeLength? : Char → Option Nat
  | 'x' => some 2
  | 'u' => some 4
  | 'U' => some 8
  | _ => none

/-- Go on with a text of one line or of several. -/
def resume (st : State) (goal : Goal) (several : Bool) (chars : List Char) : Option State :=
  if several then st.enter (.block '"' chars 0) else st.enter (.text goal '"' chars)

/-- A symbol of a text of several lines, without quotes just before it. -/
def blockSymbol (st : State) (quote : Char) (chars : List Char) : Symbol → Option State
  | .newline carriage =>
    st.enter (.block quote ('\n' :: if carriage then '\r' :: chars else chars) 0)
  | .char c =>
    if c = quote then st.enter (.block quote chars 1)
    else if c = '\\' ∧ quote = '"' then st.enter (.escape .value true chars)
    else if isPlain c then st.enter (.block quote (c :: chars) 0)
    else none

def step (st : State) (sym : Symbol) : Option State :=
  match st.mode, sym with
  | .line, .newline _ => some st
  | .line, .char c =>
    if isBlank c then some st
    else if c = '#' then st.enter (.comment .lineEnd)
    else if c = '[' then st.enter .bracket
    else st.beginKey .statement [] c
  | .bracket, .char c =>
    if c = '[' then st.enter (.key .repeated [])
    else if isBlank c then st.enter (.key .header [])
    else st.beginKey .header [] c
  | .closing parts, .char ']' =>
    match parts with
    | key :: path =>
      some { st with statements := .repeated path.reverse key :: st.statements, mode := .lineEnd }
    | [] => none
  | .key place parts, .char c =>
    if isBlank c then some st else st.beginKey place parts c
  | .bareKey place parts chars, sym =>
    let finish := st.afterKey place (String.ofList chars.reverse :: parts) sym
    match sym with
    | .char c => if isBare c then st.enter (.bareKey place parts (c :: chars)) else finish
    | .newline _ => finish
  | .keyNext place parts, sym => st.afterKey place parts sym
  | .equals, .newline _ => some st
  | .equals, .char c =>
    if isBlank c then some st
    else if c = '#' then st.enter (.comment .equals)
    else if c = '=' then st.enter .value
    else none
  | .value, .newline _ => if st.inTable then some st else none
  | .value, .char c =>
    if isBlank c then some st
    else if c = '#' ∧ st.inTable then st.enter (.comment .value)
    else st.beginValue c
  | .item, .newline _ => some st
  | .item, .char c =>
    if isBlank c then some st
    else if c = '#' then st.enter (.comment .item)
    else if c = ']' then st.closeList
    else st.beginValue c
  | .field, .newline _ => some st
  | .field, .char c =>
    if isBlank c then some st
    else if c = '#' then st.enter (.comment .field)
    else if c = '}' then st.closeTable
    else st.beginKey .inline [] c
  | .comment back, .newline _ =>
    match back with
    | .lineEnd => st.enter .line
    | .item => st.enter .item
    | .itemNext => st.enter .itemNext
    | .field => st.enter .field
    | .equals => st.enter .equals
    | .value => st.enter .value
    | .fieldNext => st.enter .fieldNext
  | .comment _, .char c => if isPlain c then some st else none
  | .opening goal quote false, .char c =>
    if c = quote then st.enter (.opening goal quote true)
    else if c = '\\' ∧ quote = '"' then st.enter (.escape goal false [])
    else if isPlain c then st.enter (.text goal quote [c])
    else none
  | .opening goal quote true, sym =>
    match goal, sym with
    | .value, .char c =>
      if c = quote then st.enter (.blockStart quote)
      else (st.endText goal []).bind (·.afterText sym)
    | _, _ => (st.endText goal []).bind (·.afterText sym)
  | .text goal quote chars, .char c =>
    if c = quote then st.endText goal chars
    else if c = '\\' ∧ quote = '"' then st.enter (.escape goal false chars)
    else if isPlain c then st.enter (.text goal quote (c :: chars))
    else none
  | .blockStart quote, .newline _ => st.enter (.block quote [] 0)
  | .blockStart quote, sym => st.blockSymbol quote [] sym
  | .block quote chars run, sym =>
    let isQuote := match sym with
      | .char c => c == quote
      | .newline _ => false
    if isQuote then
      if run = 4 then st.endText .value (quote :: quote :: chars)
      else st.enter (.block quote chars (run + 1))
    else if run < 3 then st.blockSymbol quote (List.replicate run quote ++ chars) sym
    else (st.endText .value (List.replicate (run - 3) quote ++ chars)).bind (·.afterText sym)
  | .escape goal several chars, sym =>
    match sym with
    | .newline _ => if several then st.enter (.trim chars true) else none
    | .char c =>
      if several ∧ isBlank c then st.enter (.trim chars false)
      else
        match escaped? c, codeLength? c with
        | some e, _ => st.resume goal several (e :: chars)
        | none, some left => st.enter (.code goal several chars left 0)
        | none, none => none
  | .code goal several chars left value, .char c =>
    if isHexDigit c then
      let value := 16 * value + digitValue c
      if left ≤ 1 then
        if value.isValidChar then st.resume goal several (Char.ofNat value :: chars) else none
      else st.enter (.code goal several chars (left - 1) value)
    else none
  | .trim chars ended, sym =>
    match sym with
    | .newline _ => st.enter (.trim chars true)
    | .char c =>
      if isBlank c then some st
      else if ended then st.blockSymbol '"' chars sym
      else none
  | .scalar chars, sym =>
    let finish := (scalar? chars.reverse).bind fun d => (st.endValue d).bind (·.afterValue sym)
    match sym with
    | .char c =>
      if isScalar c then st.enter (.scalar (c :: chars))
      else if c = ' ' ∧ isDate chars.reverse then st.enter (.gap chars)
      else finish
    | .newline _ => finish
  | .gap chars, sym =>
    let finish := (scalar? chars.reverse).bind fun d => (st.endValue d).bind (·.afterValue sym)
    match sym with
    | .char c => if c.isDigit then st.enter (.scalar (c :: ' ' :: chars)) else finish
    | .newline _ => finish
  | .lineEnd, sym | .itemNext, sym | .fieldNext, sym => st.afterValue sym
  | _, _ => none

/-- The end of a document. -/
def finish? (st : State) : Option (List Statement) :=
  match st.step (.newline false) with
  | some ⟨statements, [], .line⟩ => some statements.reverse
  | _ => none

end State

/-- What a TOML document says.  A byte order mark may come first. -/
def read? (text : String) : Option Data := do
  let chars := match text.toList with
    | '\ufeff' :: cs => cs
    | cs => cs
  let st ← (symbols chars).foldlM State.step ⟨[], [], .line⟩
  document? (← st.finish?)

end Espalier.Toml
