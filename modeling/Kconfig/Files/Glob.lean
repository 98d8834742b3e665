import Kconfig.Files.Store
/-!
File name patterns.

In a name `*` stands for any characters, `?` for one, and `[...]` for one of a set. Names that
start with a dot are found only by patterns that do. Patterns may stand in any directory of the
path; a path without them is found when it exists. The spellings found keep the pattern's own
slashes and dots.
-/
namespace Kconfig.Files

/-- An element of a name pattern. -/
inductive NamePart where
  | char (c : Char)
  | one
  | many
  | set (negated : Bool) (ranges : List (Char × Char))
  deriving DecidableEq, Repr

/-- The ranges of a set, single characters included. -/
def setRanges : List Char → List (Char × Char)
  | a :: '-' :: b :: s => (a, b) :: setRanges s
  | a :: s => (a, a) :: setRanges s
  | [] => []

/-- The body of a set whose bracket is read, and what follows; a leading `]` is a member. -/
def setBody? (s : List Char) : Option (List Char × List Char) :=
  let (mark, rest) := match s with
    | '!' :: t => (['!'], t)
    | t => ([], t)
  let (first, rest) := match rest with
    | ']' :: t => ([']'], t)
    | t => ([], t)
  match rest.dropWhile (· != ']') with
  | _ :: after => some (mark ++ first ++ rest.takeWhile (· != ']'), after)
  | [] => none

/-- The parts of a name pattern; `fuel` is at least its length. -/
def nameParts : Nat → List Char → List NamePart
  | 0, _ => []
  | _, [] => []
  | fuel + 1, '*' :: s => .many :: nameParts fuel s
  | fuel + 1, '?' :: s => .one :: nameParts fuel s
  | fuel + 1, '[' :: s =>
    match setBody? s with
    | none => .char '[' :: nameParts fuel s
    | some ('!' :: body, rest) => .set true (setRanges body) :: nameParts fuel rest
    | some (body, rest) => .set false (setRanges body) :: nameParts fuel rest
  | fuel + 1, c :: s => .char c :: nameParts fuel s

/-- Whether one character fits a part. -/
def NamePart.fits (c : Char) : NamePart → Bool
  | .char d => c == d
  | .one => true
  | .many => false
  | .set negated ranges => (ranges.any fun (a, b) => a ≤ c && c ≤ b) != negated

/-- Whether a name fits a pattern. -/
def fitsName : List NamePart → List Char → Bool
  | [], s => s.isEmpty
  | .many :: ps, [] => fitsName ps []
  | .many :: ps, c :: s => fitsName ps (c :: s) || fitsName (.many :: ps) s
  | _ :: _, [] => false
  | p :: ps, c :: s => p.fits c && fitsName ps s
termination_by ps s => (ps.length, s.length)

/-- Whether a path holds a pattern. -/
def hasPattern (path : String) : Bool := path.toList.any fun c => c == '*' || c == '?' || c == '['

/-- The names in a directory that fit a pattern. -/
def Store.namesFitting (store : Store) (dir pattern : String) : List String :=
  let parts := nameParts pattern.length pattern.toList
  let hidden := pattern.toList.head? == some '.'
  (store.list dir).filter fun name =>
    (hidden || name.toList.head? != some '.') && fitsName parts name.toList

/-- The name itself if it stands in a directory; the empty name stands for the directory. -/
def Store.namesEqual (store : Store) (dir name : String) : List String :=
  if name.isEmpty then if store.isDirectory dir then [name] else []
  else if store.exists? (join dir name) then [name] else []

/-- The spellings that a pattern finds; `fuel` bounds its directories. -/
def Store.globFor (store : Store) : Nat → String → List String
  | 0, _ => []
  | fuel + 1, pattern =>
    let (dir, name) := split pattern
    if !hasPattern pattern then
      let isThere := if name.isEmpty then store.isDirectory dir else store.exists? pattern
      if isThere then [pattern] else []
    else
      let dirs := if dir ≠ pattern && hasPattern dir then store.globFor fuel dir else [dir]
      dirs.flatMap fun d =>
        let found := if hasPattern name then store.namesFitting d name else store.namesEqual d name
        found.map (join d)

/-- The spellings that a pattern finds, in order. -/
def Store.glob (store : Store) (pattern : String) : List String :=
  (store.globFor (pattern.length + 1) pattern).mergeSort (· ≤ ·)

end Kconfig.Files
