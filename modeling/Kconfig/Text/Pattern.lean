import Kconfig.Text.Numeral
import Kconfig.Text.Reference
/-!
Regular expressions.

A pattern is matched from a point of a text on, by backtracking: of the ways to match, the one that
is tried first and lets the rest match counts, so what comes after a pattern is a continuation.

`ofText?` reads a pattern that stands in front of others. It knows characters and their escapes, `.`
and sets, `(?:...)`, `(?=...)` and `(?!...)` with alternatives in them, repetitions, greedy or not,
and the places `^`, `$`, `\A`, `\Z`, `\b` and `\B`; classes of characters are those of ASCII. Groups
that capture, alternatives outside of groups, and all other constructs are not read. A text without
any character that means something else is a pattern for itself.
-/
namespace Kconfig

/-- Kinds of characters, all of them ASCII. -/
inductive CharKind where
  | digit | blank | word
  deriving DecidableEq, Repr

def CharKind.has : CharKind → Char → Bool
  | .digit, c => c.isDigit
  | .blank, c => Text.asciiBlank c
  | .word, c => Text.isWordChar c

/-- A part of a set: the characters between two numbers, or those that are of a kind or are not. -/
inductive CharPart where
  | span (low high : Nat)
  | kind (kind : CharKind) (holds : Bool)
  deriving DecidableEq, Repr

def CharPart.has : CharPart → Char → Bool
  | .span low high, c => low ≤ c.toNat && c.toNat ≤ high
  | .kind k holds, c => k.has c == holds

/-- A set of characters: those of its parts, or all others. -/
structure CharSet where
  parts : List CharPart
  negated : Bool := false
  deriving DecidableEq, Repr

def CharSet.has (set : CharSet) (c : Char) : Bool := set.parts.any (·.has c) != set.negated

/-- The set of one character. -/
def CharSet.single (c : Char) : CharSet := ⟨[.span c.toNat c.toNat], false⟩

/-- Places between characters. -/
inductive TextPlace where
  | start | finish
  /-- The end, or before a line end there. -/
  | lastLine
  /-- Whether a word starts or ends. -/
  | boundary (holds : Bool)
  deriving DecidableEq, Repr

inductive Pattern where
  | nothing
  | one (set : CharSet)
  | both (p q : Pattern)
  | either (p q : Pattern)
  | times (p : Pattern) (least : Nat) (most : Option Nat) (isGreedy : Bool)
  /-- What follows matches, or does not. -/
  | ahead (p : Pattern) (holds : Bool)
  | place (place : TextPlace)
  deriving DecidableEq, Repr

namespace Pattern

/-! ### Matching -/

/-- A point of a text: the character before it, and what is left. -/
structure Point where
  before : Option Char := none
  left : List Char
  deriving DecidableEq, Repr

/-- Whether a word character stands on exactly one side. -/
def Point.isBoundary (here : Point) : Bool :=
  here.before.any Text.isWordChar != here.left.head?.any Text.isWordChar

def Point.isAt (here : Point) : TextPlace → Bool
  | .start => here.before.isNone
  | .finish => here.left.isEmpty
  | .lastLine => here.left.isEmpty || here.left == ['\n']
  | .boundary holds => here.isBoundary == holds

variable {α : Type}

/-- What matches from a point on, given what the rest gives from the point after it. -/
abbrev Matcher (α : Type) := (Point → Option α) → Point → Option α

/-- `body` as often as said. -/
def exactly (body : Matcher α) : Nat → Matcher α
  | 0, rest, here => rest here
  | count + 1, rest, here => body (exactly body count rest) here

/-- `body` as often as there is room for, or not at all; it is not tried again where it was tried
last, so `fuel` need only exceed the length of the text. -/
def upTo (body : Matcher α) (isGreedy : Bool) (rest : Point → Option α) :
    Nat → Option Nat → Option Nat → Point → Option α
  | 0, _, _, here => rest here
  | fuel + 1, room, last, here =>
    let again := fun _ : Unit =>
      if room = some 0 ∨ last = some here.left.length then none
      else body (upTo body isGreedy rest fuel (room.map (· - 1)) (some here.left.length)) here
    if isGreedy then
      match again () with
      | some a => some a
      | none => rest here
    else
      match rest here with
      | some a => some a
      | none => again ()

/-- Matches a pattern. -/
def run : Pattern → Matcher α
  | .nothing, rest, here => rest here
  | .one set, rest, here =>
    match here.left with
    | [] => none
    | c :: s => if set.has c then rest ⟨some c, s⟩ else none
  | .both p q, rest, here => p.run (q.run rest) here
  | .either p q, rest, here =>
    match p.run rest here with
    | some a => some a
    | none => q.run rest here
  | .times p least most isGreedy, rest, here =>
    exactly p.run least (fun t =>
      upTo p.run isGreedy rest (t.left.length + 1) (most.map (· - least)) none t) here
  | .ahead p true, rest, here => p.run (fun _ => rest here) here
  | .ahead p false, rest, here =>
    match rest here with
    | none => none
    | some a => if (p.run (fun _ => some a) here).isSome then none else some a
  | .place p, rest, here => if here.isAt p then rest here else none

/-- Patterns one after the other. -/
def sequence (ps : List Pattern) : Pattern := ps.foldr .both .nothing

/-- The pattern of a text that means itself. -/
def literal (s : List Char) : Pattern := sequence (s.map fun c => .one (.single c))

/-! ### Reading -/

/-- The number of `count` hexadecimal digits. -/
def hexNumber? : Nat → Nat → List Char → Option (Nat × List Char)
  | 0, n, s => some (n, s)
  | count + 1, n, c :: s => do hexNumber? count (n * 16 + (← Text.digitIn 16 c)) s
  | _ + 1, _, [] => none

/-- The character of a number up to a limit, as a part of a set. -/
def numbered? (limit : Nat) (read : Nat × List Char) : Option (CharPart × List Char) :=
  if read.1 ≤ limit then some (.span read.1 read.1, read.2) else none

/-- The character of three octal digits, or of as many as there are from `least` on. -/
def octal? (least : Nat) (s : List Char) : Option (CharPart × List Char) :=
  let digits := (s.take 3).takeWhile fun c => (Text.digitIn 8 c).isSome
  if digits.length < least then none
  else do numbered? 0xFF (← Text.readNat 8 digits, s.drop digits.length)

/-- The escape after a backslash, where it means characters inside and outside of sets. -/
def escape? (c : Char) (s : List Char) : Option (CharPart × List Char) :=
  let single := fun n => some (.span n n, s)
  match c with
  | 'd' => some (.kind .digit true, s)
  | 'D' => some (.kind .digit false, s)
  | 's' => some (.kind .blank true, s)
  | 'S' => some (.kind .blank false, s)
  | 'w' => some (.kind .word true, s)
  | 'W' => some (.kind .word false, s)
  | 'a' => single 7
  | 'f' => single 12
  | 'n' => single 10
  | 'r' => single 13
  | 't' => single 9
  | 'v' => single 11
  | 'x' => hexNumber? 2 0 s >>= numbered? 0xFF
  | 'u' => hexNumber? 4 0 s >>= numbered? 0xFFFF
  | 'U' => hexNumber? 8 0 s >>= numbered? 0x10FFFF
  | c => if c.isAlphanum then none else single c.toNat

/-- A character in a set, or a class of them. -/
def member? : List Char → Option (CharPart × List Char)
  | '\\' :: 'b' :: s => some (.span 8 8, s)
  | '\\' :: c :: s => if c.isDigit then octal? 1 (c :: s) else escape? c s
  | ['\\'] | [] => none
  | c :: s => some (.span c.toNat c.toNat, s)

/-- The parts of a set up to its closing bracket, which cannot be the first character. -/
def setParts? : Nat → List CharPart → List Char → Option (List CharPart × List Char)
  | 0, _, _ => none
  | fuel + 1, parts, s =>
    if s.head? = some ']' ∧ parts ≠ [] then some (parts, s.drop 1)
    else do
      let (part, s) ← member? s
      match s with
      | '-' :: ']' :: s => some (part :: .span 45 45 :: parts, s)
      | '-' :: s =>
        let (last, s) ← member? s
        match part, last with
        | .span low _, .span high _ =>
          if low ≤ high then setParts? fuel (.span low high :: parts) s else none
        | _, _ => none
      | s => setParts? fuel (part :: parts) s

/-- How a group counts: for what it matches, or for whether it matches what follows. -/
inductive Opening where
  | plain
  | ahead (holds : Bool)
  deriving DecidableEq, Repr

/-- What the parts of a pattern's text stand for. -/
inductive Sign where
  | item (p : Pattern)
  | place (place : TextPlace)
  | repeats (least : Nat) (most : Option Nat) (isGreedy : Bool)
  | opens (opening : Opening)
  | closes
  | bar
  deriving DecidableEq, Repr

/-- The largest count that a repetition can have. -/
def repeatLimit : Nat := 4294967294

/-- The bounds of a repetition, after the opening brace; other texts have none. -/
def bounds? (s : List Char) : Option ((Nat × Option Nat) × List Char) :=
  let number := fun s : List Char => Text.readNat 10 (s.takeWhile Char.isDigit)
  match number s, s.dropWhile Char.isDigit with
  | some n, '}' :: s => some ((n, some n), s)
  | low, ',' :: s =>
    match s.dropWhile Char.isDigit with
    | '}' :: rest => some ((low.getD 0, number s), rest)
    | _ => none
  | _, _ => none

/-- A repetition, and how eager it is. -/
def repeats? (least : Nat) (most : Option Nat) (s : List Char) : Option (Sign × List Char) :=
  if repeatLimit < least ∨ most.any (fun n => repeatLimit < n || n < least) then none
  else match s with
    | '?' :: s => some (.repeats least most false, s)
    | '+' :: _ => none
    | s => some (.repeats least most true, s)

/-- The first sign of a text. -/
def sign? : List Char → Option (Sign × List Char)
  | [] => none
  | '\\' :: s =>
    match s with
    | [] => none
    | 'A' :: s => some (.place .start, s)
    | 'Z' :: s => some (.place .finish, s)
    | 'b' :: s => some (.place (.boundary true), s)
    | 'B' :: s => some (.place (.boundary false), s)
    | c :: s =>
      let read := if c.isDigit then octal? (if c = '0' then 1 else 3) (c :: s) else escape? c s
      read.map fun (part, s) => (.item (.one ⟨[part], false⟩), s)
  | '[' :: s =>
    let negated := s.head? == some '^'
    (setParts? (s.length + 1) [] (if negated then s.drop 1 else s)).map fun (parts, s) =>
      (.item (.one ⟨parts, negated⟩), s)
  | '(' :: '?' :: ':' :: s => some (.opens .plain, s)
  | '(' :: '?' :: '=' :: s => some (.opens (.ahead true), s)
  | '(' :: '?' :: '!' :: s => some (.opens (.ahead false), s)
  | '(' :: _ => none
  | ')' :: s => some (.closes, s)
  | '|' :: s => some (.bar, s)
  | '^' :: s => some (.place .start, s)
  | '$' :: s => some (.place .lastLine, s)
  | '.' :: s => some (.item (.one ⟨[.span 10 10], true⟩), s)
  | '*' :: s => repeats? 0 none s
  | '+' :: s => repeats? 1 none s
  | '?' :: s => repeats? 0 (some 1) s
  | '{' :: s =>
    match bounds? s with
    | some ((least, most), s) => repeats? least most s
    | none => some (.item (.one (.single '{')), s)
  | c :: s => some (.item (.one (.single c)), s)

/-- A group that is read: the alternatives before, and the parts of this one, last first, with
whether they can be repeated. -/
structure Open where
  opening : Opening := .plain
  done : List Pattern := []
  items : List (Pattern × Bool) := []
  deriving DecidableEq, Repr

def Open.current (o : Open) : Pattern := sequence (o.items.reverse.map Prod.fst)

/-- The pattern of a group. -/
def Open.pattern (o : Open) : Pattern :=
  let p := o.done.foldl (fun later p => .either p later) o.current
  match o.opening with
  | .plain => p
  | .ahead holds => .ahead p holds

/-- Adds a part. -/
def Open.add (o : Open) (p : Pattern) (isRepeatable : Bool) : Open :=
  { o with items := (p, isRepeatable) :: o.items }

/-- What a sign makes of the groups that are open, the innermost first. -/
def take? (sign : Sign) (opens : List Open) : Option (List Open) :=
  match sign, opens with
  | .item p, o :: outer => some (o.add p true :: outer)
  | .place p, o :: outer => some (o.add (.place p) false :: outer)
  | .repeats least most isGreedy, o :: outer =>
    match o.items with
    | (p, true) :: items =>
      some ({ o with items := (.times p least most isGreedy, false) :: items } :: outer)
    | _ => none
  | .opens opening, opens => some ({ opening } :: opens)
  | .closes, o :: o' :: outer => some (o'.add o.pattern true :: outer)
  | .bar, o :: outer => some ({ o with done := o.current :: o.done, items := [] } :: outer)
  | _, _ => none

/-- The groups that are open after a text. -/
def read? : Nat → List Open → List Char → Option (List Open)
  | _, opens, [] => some opens
  | 0, _, _ => none
  | fuel + 1, opens, s => do
    let (sign, s) ← sign? s
    read? fuel (← take? sign opens) s

/-- The pattern of a text that stands in front of others. -/
def ofText? (s : List Char) : Option Pattern :=
  match read? s.length [{}] s with
  | some [o] => if o.done.isEmpty then some o.pattern else none
  | _ => none

/-! ### Texts that mean themselves -/

/-- Whether a character means itself in a pattern. -/
def meansItself (c : Char) : Bool := !"\\.^$*+?\x7b[(|)".toList.contains c

/-- All characters of a text mean themselves. -/
def Plain (s : String) : Prop := ∀ c ∈ s.toList, meansItself c = true

instance (s : String) : Decidable (Plain s) :=
  decidable_of_iff (s.toList.all meansItself = true) List.all_eq_true

end Pattern
end Kconfig
