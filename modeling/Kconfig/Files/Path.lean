/-!
Paths as texts.

A path is a text with slashes; `join`, `parent` and `split` work on its spelling alone and do not
ask whether it exists. `absolute` is the one spelling from the root, without `.`, `..` and doubled
slashes, of a path seen from a directory.
-/
namespace Kconfig.Files

/-- The pieces of a text between separators; one more than there are separators. -/
def pieces (sep : Char) : List Char → List (List Char)
  | [] => [[]]
  | c :: s =>
    if c = sep then [] :: pieces sep s
    else match pieces sep s with
      | [] => [[c]]
      | p :: more => (c :: p) :: more

/-- The names between the slashes of a path. -/
def names (path : String) : List String := (pieces '/' path.toList).map String.ofList

/-- Whether a path has a null character, which no name of a file has. -/
def hasNull (path : String) : Bool := path.toList.contains '\x00'

/-- Whether a path starts at the root. -/
def isAbsolute (path : String) : Bool := path.toList.head? == some '/'

/-- The second path seen from the first; an absolute one stands for itself. -/
def join (a b : String) : String :=
  if isAbsolute b then b
  else if a.isEmpty || a.toList.getLast? == some '/' then a ++ b
  else a ++ "/" ++ b

/-- A path up to its last slash, without the slashes at its end, and the name after that slash. -/
def split (path : String) : String × String :=
  let back := path.toList.reverse
  let name := back.takeWhile (· != '/')
  let head := back.dropWhile (· != '/')
  let cut := head.dropWhile (· == '/')
  (String.ofList (if cut.isEmpty then head else cut).reverse, String.ofList name.reverse)

/-- The directory part of a path. -/
def parent (path : String) : String := (split path).1

/-- Names without `.` and empty ones, each `..` taking away the name before it. -/
def resolveDots (start : List String) (names : List String) : List String :=
  names.foldl (fun dir name =>
    if name = "" || name = "." then dir
    else if name = ".." then dir.dropLast
    else dir ++ [name]) start

/-- The names from the root of a path seen from a directory. -/
def absoluteNames (dir : List String) (path : String) : List String :=
  resolveDots (if isAbsolute path then [] else dir) (names path)

/-- The path with these names from the root. -/
def ofNames (names : List String) : String := "/" ++ "/".intercalate names

/-- The spelling from the root of a path seen from a directory. -/
def absolute (dir : List String) (path : String) : String := ofNames (absoluteNames dir path)

end Kconfig.Files
