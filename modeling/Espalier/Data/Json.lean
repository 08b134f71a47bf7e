import Espalier.Data.Basic
import Espalier.Data.Decimal

/-! # JSON

The reader goes over a text once, a character at a time, and over the tokens it finds once more,
with the lists and records that are still open on a stack.
-/

namespace Espalier.Json

/-- A text without its value is one with a surrogate that is not part of a pair. -/
inductive Token where
  | openRecord
  | closeRecord
  | openList
  | closeList
  | comma
  | colon
  | text (s : Option String)
  | scalar (d : Data)

/-- What the characters read so far may still become part of.  Characters are held last first; those
of a text as code points, or as code units where they are escaped. -/
inductive Lexing where
  | between
  | word (chars : List Char)
  | number (chars : List Char)
  | text (units : List Nat)
  | escape (units : List Nat)
  /-- Inside an escaped code unit with `left` digits to come. -/
  | unit (units : List Nat) (left value : Nat)

/-- The characters of a text; none if a surrogate is not part of a pair. -/
def joinUnits : List Nat → Option (List Char)
  | [] => some []
  | u :: us =>
    if 0xD800 ≤ u ∧ u < 0xDC00 then
      match us with
      | v :: us =>
        if 0xDC00 ≤ v ∧ v < 0xE000 then
          (joinUnits us).map (Char.ofNat (0x10000 + (u - 0xD800) * 0x400 + (v - 0xDC00)) :: ·)
        else none
      | [] => none
    else if 0xDC00 ≤ u ∧ u < 0xE000 then none
    else (joinUnits us).map (Char.ofNat u :: ·)

def digitsValue (chars : List Char) : Nat :=
  chars.foldl (fun n c => 10 * n + (c.toNat - '0'.toNat)) 0

/-- The exponent of a number, from its mark on. -/
def readExponent? : List Char → Option Int
  | '-' :: cs => if cs ≠ [] ∧ cs.all Char.isDigit then some (-(digitsValue cs : Int)) else none
  | '+' :: cs => if cs ≠ [] ∧ cs.all Char.isDigit then some (digitsValue cs) else none
  | cs => if cs ≠ [] ∧ cs.all Char.isDigit then some (digitsValue cs) else none

/-- Append digits to a number as long as it stays below `2 ^ 64`, and count the digits that are
left. -/
def appendDigits (n : Nat) : List Char → Nat × Nat
  | [] => (n, 0)
  | c :: cs =>
    let m := 10 * n + (c.toNat - '0'.toNat)
    if m < UInt64.size then appendDigits m cs else (n, cs.length + 1)

/-- Whether a number is beyond the doubles.  Only those of its first digits count that fit a word of
64 bits; the whole digits after them stand for a power of ten. -/
def isHuge (whole fraction : List Char) (exponent : Int) : Bool :=
  let (n, left) := appendDigits 0 whole
  let (n, dropped) := appendDigits n fraction
  Decimal.productOverflows n (exponent + left - (fraction.length - dropped))

/-- The number that `cs` spells.  One with a fraction or an exponent is no integer, and neither is a
negative zero. -/
def readNumber? (cs : List Char) : Option Data :=
  let negative := cs.head? = some '-'
  let cs := if negative then cs.tail else cs
  let whole := cs.takeWhile Char.isDigit
  let rest := cs.dropWhile Char.isDigit
  if whole = [] ∨ (whole.head? = some '0' ∧ whole.length ≠ 1) then none
  else
    match rest with
    | [] =>
      let n := digitsValue whole
      if negative ∧ n = 0 then some .real
      else if isHuge whole [] 0 then some .malformed
      else some (.int (if negative then -(n : Int) else n))
    | c :: cs =>
      let (fraction, tail) :=
        if c = '.' then (cs.takeWhile Char.isDigit, cs.dropWhile Char.isDigit) else ([], rest)
      if c = '.' ∧ fraction = [] then none
      else
        let exponent? :=
          match tail with
          | [] => some 0
          | e :: cs => if e = 'e' ∨ e = 'E' then readExponent? cs else none
        exponent?.map fun exponent => if isHuge whole fraction exponent then .malformed else .real

def readWord? : List Char → Option Data
  | ['n', 'u', 'l', 'l'] => some .null
  | ['t', 'r', 'u', 'e'] => some (.bool true)
  | ['f', 'a', 'l', 's', 'e'] => some (.bool false)
  | _ => none

def hexValue? (c : Char) : Option Nat :=
  if c.isDigit then some (c.toNat - '0'.toNat)
  else if 'a' ≤ c ∧ c ≤ 'f' then some (c.toNat - 'a'.toNat + 10)
  else if 'A' ≤ c ∧ c ≤ 'F' then some (c.toNat - 'A'.toNat + 10)
  else none

/-- The character for which a letter after a backslash stands. -/
def escaped? : Char → Option Nat
  | '"' => some 0x22
  | '\\' => some 0x5C
  | '/' => some 0x2F
  | 'b' => some 0x08
  | 'f' => some 0x0C
  | 'n' => some 0x0A
  | 'r' => some 0x0D
  | 't' => some 0x09
  | _ => none

namespace Lexing

/-- A character between tokens. -/
def begin (c : Char) : Option (Lexing × List Token) :=
  if c = ' ' ∨ c = '\n' ∨ c = '\t' ∨ c = '\r' then some (.between, [])
  else if c = '"' then some (.text [], [])
  else if c.isDigit ∨ c = '-' then some (.number [c], [])
  else if c.isAlpha then some (.word [c], [])
  else
    match c with
    | '{' => some (.between, [.openRecord])
    | '}' => some (.between, [.closeRecord])
    | '[' => some (.between, [.openList])
    | ']' => some (.between, [.closeList])
    | ',' => some (.between, [.comma])
    | ':' => some (.between, [.colon])
    | _ => none

/-- End a token before `c`. -/
def finish (scalar : Option Data) (c : Char) : Option (Lexing × List Token) := do
  let (state, tokens) ← begin c
  return (state, .scalar (← scalar) :: tokens)

def step : Lexing → Char → Option (Lexing × List Token)
  | .between, c => begin c
  | .word chars, c =>
    if c.isAlpha then some (.word (c :: chars), []) else finish (readWord? chars.reverse) c
  | .number chars, c =>
    if c.isDigit ∨ c = '+' ∨ c = '-' ∨ c = '.' ∨ c = 'e' ∨ c = 'E' then
      some (.number (c :: chars), [])
    else finish (readNumber? chars.reverse) c
  | .text units, c =>
    if c = '"' then some (.between, [.text ((joinUnits units.reverse).map String.ofList)])
    else if c = '\\' then some (.escape units, [])
    else if c.toNat < 0x20 then none
    else some (.text (c.toNat :: units), [])
  | .escape units, c =>
    if c = 'u' then some (.unit units 4 0, [])
    else (escaped? c).map fun u => (.text (u :: units), [])
  | .unit units left value, c =>
    (hexValue? c).map fun d =>
      let value := 16 * value + d
      if left ≤ 1 then (.text (value :: units), []) else (.unit units (left - 1) value, [])

/-- The last token of a text that ends here. -/
def last : Lexing → Option (List Token)
  | .between => some []
  | .word chars => (readWord? chars.reverse).map fun d => [.scalar d]
  | .number chars => (readNumber? chars.reverse).map fun d => [.scalar d]
  | _ => none

end Lexing

/-- The tokens of a text, after those of `found`, which are held last first. -/
def tokensFrom : Lexing → List Token → List Char → Option (List Token)
  | state, found, [] => state.last.map fun ts => (ts.reverse ++ found).reverse
  | state, found, c :: cs =>
    match state.step c with
    | none => none
    | some (state, ts) => tokensFrom state (ts.reverse ++ found) cs

def tokens? (cs : List Char) : Option (List Token) := tokensFrom .between [] cs

/-- A list or record that is still open, its elements last first. -/
inductive Frame where
  | list (items : List Data)
  | record (fields : List (String × Data)) (key : Option String)

/-- What may come next. -/
inductive Want where
  | value
  | valueOrClose
  | key
  | keyOrClose
  | colon
  | separator
  | done (d : Data)

structure Reading where
  frames : List Frame
  want : Want

namespace Reading

/-- A value has been read.  A field whose name stands for nothing does so itself. -/
def value : List Frame → Data → Reading
  | [], d => ⟨[], .done d⟩
  | .list items :: frames, d => ⟨.list (d :: items) :: frames, .separator⟩
  | .record fields (some key) :: frames, d =>
    ⟨.record ((key, d) :: fields) none :: frames, .separator⟩
  | .record fields none :: frames, _ =>
    ⟨.record (("", .malformed) :: fields) none :: frames, .separator⟩

def close : List Frame → Token → Option Reading
  | .list items :: frames, .closeList => some (value frames (.list items.reverse))
  | .record fields _ :: frames, .closeRecord => some (value frames (.record fields.reverse))
  | _, _ => none

/-- The name of a field.  In the outermost record it has to stand for something. -/
def key : List Frame → Option String → Option Reading
  | [.record _ _], none => none
  | .record fields _ :: frames, key => some ⟨.record fields key :: frames, .colon⟩
  | _, _ => none

def open? (frames : List Frame) : Token → Option Reading
  | .openList => some ⟨.list [] :: frames, .valueOrClose⟩
  | .openRecord => some ⟨.record [] none :: frames, .keyOrClose⟩
  | .scalar d => some (value frames d)
  | .text (some s) => some (value frames (.text s))
  | .text none => some (value frames .malformed)
  | _ => none

def step (r : Reading) (t : Token) : Option Reading :=
  match r.want, t with
  | .value, t => open? r.frames t
  | .valueOrClose, t => (close r.frames t).or (open? r.frames t)
  | .key, .text s => key r.frames s
  | .keyOrClose, .text s => key r.frames s
  | .keyOrClose, t => close r.frames t
  | .colon, .colon => some { r with want := .value }
  | .separator, .comma =>
    match r.frames with
    | .list _ :: _ => some { r with want := .value }
    | .record .. :: _ => some { r with want := .key }
    | [] => none
  | .separator, t => close r.frames t
  | _, _ => none

end Reading

/-- What a JSON text says.  Scalars without a value are left to those who read them. -/
def read? (text : String) : Option Data := do
  let tokens ← tokens? text.toList
  let reading ← tokens.foldlM Reading.step ⟨[], .value⟩
  match reading.want with
  | .done d => return d
  | _ => none

/-- How deep a text may be nested. -/
def depthLimit : Nat := 127

/-- What a JSON text says, if all of it can be read. -/
def readAll? (text : String) : Option Data :=
  (read? text).filter (Data.fits depthLimit)

def hexDigits (n : Nat) : String :=
  String.ofList (Nat.toDigits 16 n)

/-- Quotes, backslashes and control characters are escaped. -/
def quoteChar (c : Char) : String :=
  match c with
  | '"' => "\\\""
  | '\\' => "\\\\"
  | '\n' => "\\n"
  | '\r' => "\\r"
  | '\t' => "\\t"
  | '\x08' => "\\b"
  | '\x0c' => "\\f"
  | c => if c.toNat < 0x10 then "\\u000" ++ hexDigits c.toNat
    else if c.toNat < 0x20 then "\\u00" ++ hexDigits c.toNat
    else c.toString

def quote (s : String) : String :=
  "\"" ++ String.join (s.toList.map quoteChar) ++ "\""

mutual

/-- Data in one line. -/
def write : Data → String
  | .bool true => "true"
  | .bool false => "false"
  | .int i => toString i
  | .text s => quote s
  | .list items => "[" ++ ",".intercalate (writeAll items) ++ "]"
  | .record fields => "\x7b" ++ ",".intercalate (writeFields fields) ++ "\x7d"
  | .null | .real | .date | .malformed => "null"

def writeAll : List Data → List String
  | [] => []
  | d :: ds => write d :: writeAll ds

def writeFields : List (String × Data) → List String
  | [] => []
  | (name, d) :: fs => (quote name ++ ":" ++ write d) :: writeFields fs

end

def indentation (level : Nat) : String :=
  String.ofList (List.replicate (2 * level) ' ')

/-- Elements on lines of their own between brackets. -/
def block (level : Nat) (opening closing : String) : List String → String
  | [] => opening ++ closing
  | parts =>
    let inner := indentation (level + 1)
    opening ++ "\n" ++ ",\n".intercalate (parts.map (inner ++ ·)) ++ "\n" ++ indentation level ++
      closing

mutual

/-- Data over several lines, two blanks for each level. -/
def writePretty : (level : Nat) → Data → String
  | level, .list items => block level "[" "]" (writePrettyAll (level + 1) items)
  | level, .record fields => block level "\x7b" "\x7d" (writePrettyFields (level + 1) fields)
  | _, d => write d

def writePrettyAll : (level : Nat) → List Data → List String
  | _, [] => []
  | level, d :: ds => writePretty level d :: writePrettyAll level ds

def writePrettyFields : (level : Nat) → List (String × Data) → List String
  | _, [] => []
  | level, (name, d) :: fs =>
    (quote name ++ ": " ++ writePretty level d) :: writePrettyFields level fs

end

end Espalier.Json
