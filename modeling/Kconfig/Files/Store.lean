import Kconfig.Files.Path
import Kconfig.Text.Utf8
/-!
The files that the program reads and writes.

A store maps normal paths to directories and file contents. Contents are text, or raw bytes when
they are not UTF-8, so that text written is the text read again. Every operation takes a path as it
is spelled, walks it name by name, and fails with the condition a user knows from the system:
no such file, not a directory, is a directory.
-/
namespace Kconfig.Files

/-- Why a path cannot be used. -/
inductive Condition where
  | noEntry | notDirectory | isDirectory
  deriving DecidableEq, Repr

/-- The number of a condition. -/
def Condition.number : Condition → Nat
  | .noEntry => 2
  | .notDirectory => 20
  | .isDirectory => 21

/-- The short name of a condition. -/
def Condition.code : Condition → String
  | .noEntry => "ENOENT"
  | .notDirectory => "ENOTDIR"
  | .isDirectory => "EISDIR"

/-- A condition in words. -/
def Condition.words : Condition → String
  | .noEntry => "No such file or directory"
  | .notDirectory => "Not a directory"
  | .isDirectory => "Is a directory"

/-- What a file holds. -/
inductive Content where
  | text (s : String)
  | raw (bytes : List UInt8)
  deriving DecidableEq, Repr

/-- Bytes as content: as text if they decode. -/
def Content.ofBytes (bytes : List UInt8) : Content :=
  match Text.decode bytes with
  | .ok s => .text (String.ofList s)
  | .error _ => .raw bytes

/-- Content as it is read. -/
def Content.decoded : Content → Text.Decoded
  | .text s => ⟨Text.unifyLineEnds s.toList, none⟩
  | .raw bytes => Text.decodeFile bytes

/-- What stands at a path. -/
inductive Entry where
  | directory
  | file (content : Content)
  deriving DecidableEq, Repr

/-- Entries by normal path; the working directory and those around it are always there. -/
structure Store where
  workDir : List String := ["work"]
  entries : List (List String × Entry) := []
  deriving Inhabited

namespace Store

/-- What stands at a normal path. -/
def at? (store : Store) (path : List String) : Option Entry :=
  if path.isPrefixOf store.workDir then some .directory else store.entries.lookup path

/-- The store with an entry put at a normal path. -/
def set (store : Store) (path : List String) (entry : Entry) : Store :=
  { store with entries := (path, entry) :: store.entries.filter (·.1 ≠ path) }

/-- Whether one may look for names inside a normal path. -/
def enter (store : Store) (path : List String) : Except Condition Unit :=
  match store.at? path with
  | some .directory => .ok ()
  | some (.file _) => .error .notDirectory
  | none => .error .noEntry

/-- Walks names from a normal path. -/
def walk (store : Store) (dir : List String) : List String → Except Condition (List String)
  | [] => .ok dir
  | name :: more => do
    store.enter dir
    if name = "" || name = "." then store.walk dir more
    else if name = ".." then store.walk dir.dropLast more
    else store.walk (dir ++ [name]) more

/-- The normal path that a spelling leads to; its last name need not exist. -/
def locate (store : Store) (path : String) : Except Condition (List String) :=
  if path.isEmpty || hasNull path then .error .noEntry
  else if isAbsolute path then store.walk [] ((names path).drop 1)
  else store.walk store.workDir (names path)

/-- The spelling from the root of a path. -/
def absolute (store : Store) (path : String) : String := Files.absolute store.workDir path

/-- What a spelling leads to. -/
def find? (store : Store) (path : String) : Option Entry :=
  match store.locate path with
  | .ok p => store.at? p
  | .error _ => none

def exists? (store : Store) (path : String) : Bool := (store.find? path).isSome

def isDirectory (store : Store) (path : String) : Bool := store.find? path == some .directory

/-- The content of a file. -/
def read (store : Store) (path : String) : Except Condition Content := do
  match store.at? (← store.locate path) with
  | some (.file content) => .ok content
  | some .directory => .error .isDirectory
  | none => .error .noEntry

/-- The store after a file is written; its directory must exist. -/
def write (store : Store) (path : String) (content : Content) : Except Condition Store := do
  match store.locate path with
  | .error .noEntry =>
    let isSlashed := !path.isEmpty && path.toList.getLast? == some '/'
    .error (if isSlashed then .isDirectory else .noEntry)
  | .error e => .error e
  | .ok p =>
    store.enter p.dropLast
    match store.at? p with
    | some .directory => .error .isDirectory
    | _ => .ok (store.set p (.file content))

/-- The names inside a directory. -/
def list (store : Store) (path : String) : List String :=
  match store.locate path with
  | .error _ => []
  | .ok dir => store.entries.filterMap fun (p, _) =>
    if p ≠ [] ∧ p.dropLast = dir then p.getLast? else none

/-- The store with a directory, and those around it, made. -/
def addDirectory (store : Store) (path : List String) : Store :=
  (List.range (path.length + 1)).foldl (fun st n =>
    if (st.at? (path.take n)).isSome then st else st.set (path.take n) .directory) store

/-- The store with a file put in place, its directories made. -/
def addFile (store : Store) (path : List String) (content : Content) : Store :=
  (store.addDirectory path.dropLast).set path (.file content)

/-- Whether an entry may take the place of another. -/
def mayReplace (store : Store) (target : List String) (moved : Entry) : Bool :=
  match moved, store.at? target with
  | _, none => (store.enter target.dropLast).toBool
  | .file _, some (.file _) => true
  | .directory, some .directory => !store.entries.any fun (p, _) => p.dropLast = target
  | _, _ => false

/-- The store after an entry moves, with all that is in it; the same store if it cannot move. -/
def rename (store : Store) (source target : String) : Store :=
  match store.locate source, store.locate target with
  | .ok s, .ok t =>
    match store.at? s with
    | none => store
    | some moved =>
      let isFixed := s.isPrefixOf store.workDir
      if s = t || isFixed || s.isPrefixOf t || !store.mayReplace t moved then store
      else
        let entries := store.entries.filter (·.1 ≠ t)
        let moved := fun p => if s.isPrefixOf p then t ++ p.drop s.length else p
        { store with entries := entries.map fun (p, e) => (moved p, e) }
  | _, _ => store

theorem at?_set_self (store : Store) {path : List String} (entry : Entry)
    (h : path.isPrefixOf store.workDir = false) : (store.set path entry).at? path = some entry := by
  simp [at?, set, h]

end Store
end Kconfig.Files
