import Kconfig.Json.Basic
/-!
Reading JSON.

The reader takes one value with blanks around it and refuses anything else, saying what it expected
and where. Texts hold whole characters: where an escape gives half of a surrogate pair without the
other half, the reader stops with `half`, whatever follows. `fuel` bounds the nesting of values; a
text is never nested deeper than it is long, so `parse` always has enough.
-/
namespace Kconfig.Json

/-- What a reader of JSON can miss. -/
inductive Missing where
  | value | propertyName | colon | comma | endOfData
  | stringEnd | control | escape | unicodeEscape
  /-- The other half of a surrogate pair. -/
  | half
  deriving DecidableEq, Repr

/-- The words for what is missing. -/
def Missing.message : Missing → String
  | .value => "Expecting value"
  | .propertyName => "Expecting property name enclosed in double quotes"
  | .colon => "Expecting ':' delimiter"
  | .comma => "Expecting ',' delimiter"
  | .endOfData => "Extra data"
  | .stringEnd => "Unterminated string starting at"
  | .control => "Invalid control character at"
  | .escape => "Invalid \\escape"
  | .unicodeEscape => "Invalid \\uXXXX escape"
  | .half => "Unpaired surrogate at"

/-- What is missing, and the text that is left where it is missing. -/
structure Stop where
  missing : Missing
  rest : List Char

/-- A reader: a value and the text after it, or where it stops. -/
abbrev Reader (α : Type) := List Char → Except Stop (α × List Char)

def isSpace (c : Char) : Bool := c == ' ' || c == '\t' || c == '\n' || c == '\r'

def skip (s : List Char) : List Char := s.dropWhile isSpace

/-- The value of a hexadecimal digit. -/
def hexDigit? (c : Char) : Option Nat :=
  if c.isDigit then some (c.toNat - 48)
  else if 'a' ≤ c ∧ c ≤ 'f' then some (c.toNat - 87)
  else if 'A' ≤ c ∧ c ≤ 'F' then some (c.toNat - 55)
  else none

/-- Four hexadecimal digits. -/
def hex4? : List Char → Option (Nat × List Char)
  | a :: b :: c :: d :: s => do
    let high := (← hexDigit? a) * 16 + (← hexDigit? b)
    let low := (← hexDigit? c) * 16 + (← hexDigit? d)
    pure (high * 256 + low, s)
  | _ => none

/-- The character of an escape with one letter. -/
def escaped? : Char → Option Char
  | '"' => some '"'
  | '\\' => some '\\'
  | '/' => some '/'
  | 'b' => some '\x08'
  | 'f' => some '\x0c'
  | 'n' => some '\n'
  | 'r' => some '\r'
  | 't' => some '\t'
  | _ => none

/-- The characters up to the closing quote; `all` starts at the opening one. -/
def readChars (all : List Char) : Nat → Reader (List Char)
  | 0, _ => .error ⟨.stringEnd, all⟩
  | _, [] => .error ⟨.stringEnd, all⟩
  | fuel + 1, c :: s =>
    let more := fun (d : Char) (s : List Char) =>
      (readChars all fuel s).map fun r => (d :: r.1, r.2)
    if c = '"' then .ok ([], s)
    else if c.toNat < 32 then .error ⟨.control, c :: s⟩
    else if c ≠ '\\' then more c s
    else match s with
      | [] => .error ⟨.stringEnd, all⟩
      | 'u' :: t =>
        match hex4? t with
        | none => .error ⟨.unicodeEscape, s⟩
        | some (n, t) =>
          if 0xD800 ≤ n ∧ n < 0xDC00 then
            match t with
            | '\\' :: 'u' :: t' =>
              match hex4? t' with
              | some (m, t'') =>
                if 0xDC00 ≤ m ∧ m < 0xE000 then
                  more (Char.ofNat (0x10000 + (n - 0xD800) * 1024 + (m - 0xDC00))) t''
                else .error ⟨.half, c :: s⟩
              | none => .error ⟨.half, c :: s⟩
            | _ => .error ⟨.half, c :: s⟩
          else if 0xDC00 ≤ n ∧ n < 0xE000 then .error ⟨.half, c :: s⟩
          else more (Char.ofNat n) t
      | d :: t =>
        match escaped? d with
        | some e => more e t
        | none => .error ⟨.escape, c :: s⟩

/-- A string whose opening quote is read. -/
def readString (s : List Char) : Except Stop (String × List Char) :=
  (readChars ('"' :: s) (s.length + 1) s).map fun r => (String.ofList r.1, r.2)

/-- The number that decimal digits write. -/
def digitsValue (s : List Char) : Nat := s.foldl (fun n c => n * 10 + (c.toNat - 48)) 0

/-- The digits of a fraction, when a point and a digit follow. -/
def readFraction : List Char → Option (List Char × List Char)
  | '.' :: s =>
    let digits := s.takeWhile Char.isDigit
    if digits.isEmpty then none else some (digits, s.dropWhile Char.isDigit)
  | _ => none

/-- The digits of an exponent after its sign. -/
def readExponentDigits (sign : Int) (s : List Char) : Option (Int × List Char) :=
  let digits := s.takeWhile Char.isDigit
  if digits.isEmpty then none else some (sign * digitsValue digits, s.dropWhile Char.isDigit)

/-- An exponent, when one follows. -/
def readExponent : List Char → Option (Int × List Char)
  | e :: s =>
    if e = 'e' ∨ e = 'E' then
      match s with
      | '-' :: s => readExponentDigits (-1) s
      | '+' :: s => readExponentDigits 1 s
      | s => readExponentDigits 1 s
    else none
  | [] => none

/-- A number without its sign; no leading zeros. -/
def readNumber (isNegative : Bool) (s : List Char) : Option (Json × List Char) :=
  let whole := match s with
    | '0' :: _ => ['0']
    | _ => s.takeWhile Char.isDigit
  if whole.isEmpty then none
  else
    let s := s.drop whole.length
    let (fraction, s) := (readFraction s).getD ([], s)
    let float := fun (e : Int) =>
      Json.float (.ofDecimal isNegative (digitsValue (whole ++ fraction)) (e - fraction.length))
    match readExponent s with
    | some (e, s) => some (float e, s)
    | none =>
      if fraction.isEmpty then
        let n : Int := digitsValue whole
        some (.int (if isNegative then -n else n), s)
      else some (float 0, s)

/-- The text after a word, if the text starts with it. -/
def dropWord? (word : String) (s : List Char) : Option (List Char) :=
  if word.toList.isPrefixOf s then some (s.drop word.length) else none

/-- A double that is no finite number. -/
def readSpecial (s : List Char) : Except Stop (Json × List Char) :=
  match dropWord? "NaN" s, dropWord? "Infinity" s, dropWord? "-Infinity" s with
  | some s, _, _ => .ok (.float .notANumber, s)
  | _, some s, _ => .ok (.float (.infinite false), s)
  | _, _, some s => .ok (.float (.infinite true), s)
  | none, none, none => .error ⟨.value, s⟩

/-- A value that is no string, array or object. -/
def readAtom (s : List Char) : Except Stop (Json × List Char) :=
  match dropWord? "null" s, dropWord? "true" s, dropWord? "false" s with
  | some s, _, _ => .ok (.null, s)
  | _, some s, _ => .ok (.bool true, s)
  | _, _, some s => .ok (.bool false, s)
  | none, none, none =>
    let number := match s with
      | '-' :: s => readNumber true s
      | s => readNumber false s
    match number with
    | some r => .ok r
    | none => readSpecial s

mutual

/-- A value at the start of the text. -/
def readValue : Nat → Reader Json
  | 0, s => .error ⟨.value, s⟩
  | fuel + 1, s =>
    match s with
    | '"' :: s => (readString s).map fun r => (.str r.1, r.2)
    | '[' :: s =>
      match skip s with
      | ']' :: s => .ok (.arr [], s)
      | s => (readItems fuel s).map fun r => (.arr r.1, r.2)
    | '{' :: s =>
      match skip s with
      | '}' :: s => .ok (.obj [], s)
      | s => (readFields fuel [] s).map fun r => (.obj r.1, r.2)
    | s => readAtom s

/-- The items of an array and its closing bracket. -/
def readItems : Nat → Reader (List Json)
  | 0, s => .error ⟨.value, s⟩
  | fuel + 1, s => do
    let (v, s) ← readValue fuel s
    match skip s with
    | ']' :: s => .ok ([v], s)
    | ',' :: s =>
      let (vs, s) ← readItems fuel (skip s)
      .ok (v :: vs, s)
    | s => .error ⟨.comma, s⟩

/-- The fields of an object, after those already read, and its closing brace. -/
def readFields : Nat → List (String × Json) → Reader (List (String × Json))
  | 0, _, s => .error ⟨.propertyName, s⟩
  | fuel + 1, fields, s => do
    match s with
    | '"' :: s =>
      let (key, s) ← readString s
      match skip s with
      | ':' :: s =>
        let (v, s) ← readValue fuel (skip s)
        let fields := setField key v fields
        match skip s with
        | '\x7d' :: s => .ok (fields, s)
        | ',' :: s => readFields fuel fields (skip s)
        | s => .error ⟨.comma, s⟩
      | s => .error ⟨.colon, s⟩
    | s => .error ⟨.propertyName, s⟩

end

/-- A text that is no JSON: what is missing, and the offset where. -/
structure ParseError where
  missing : Missing
  line : Nat
  column : Nat
  offset : Nat
  deriving DecidableEq, Repr

/-- The place in a text before its last characters. -/
def ParseError.at (s : List Char) (stop : Stop) : ParseError :=
  let before := s.take (s.length - stop.rest.length)
  let line := before.reverse.takeWhile (· != '\n')
  ⟨stop.missing, before.count '\n' + 1, line.length + 1, before.length⟩

/-- The message for a text that is no JSON. -/
def ParseError.message (e : ParseError) : String :=
  s!"{e.missing.message}: line {e.line} column {e.column} (char {e.offset})"

/-- The value that a text writes. -/
def parse (text : String) : Except ParseError Json :=
  let s := text.toList
  match readValue (2 * s.length + 1) (skip s) with
  | .error stop => .error (.at s stop)
  | .ok (v, rest) =>
    match skip rest with
    | [] => .ok v
    | rest => .error (.at s ⟨.endOfData, rest⟩)

end Kconfig.Json
