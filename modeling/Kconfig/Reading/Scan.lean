import Kconfig.Model.Links
import Kconfig.Reading.FormLine
import Kconfig.Reading.Help
import Kconfig.Reading.Property
import Kconfig.Reading.TokenLine
/-!
Lines of the file that is read.

A line that ends in a backslash goes on in the next one. A line that was read too early is kept: the
parser gives back a statement that it cannot use, and the line that ends a help text is known only
when it has been read. The two notations differ in what they keep, and in when they count the lines
of a help text.
-/
namespace Kconfig

/-- A notation of lines. -/
structure Dialect where
  readLine : List Char → Reading (Option Statement)
  /-- Whether the line after a help text is read with it, and the text's lines are counted only when
  it has ended. -/
  readsAhead : Bool

/-- The notation of tokens. -/
def Dialect.tokens : Dialect := ⟨Statement.readTokenLine, true⟩

/-- The notation of line forms, where a library takes expressions. -/
def Dialect.forms (expression : Infix) : Dialect := ⟨Statement.readFormLine expression, false⟩

/-- A file that is open: its name and its lines, those that are left, and what is wrong after
them. -/
structure OpenFile where
  name : String
  lines : List (List Char)
  rest : List (List Char)
  fault : Option Text.Fault

def OpenFile.start (name : String) (content : Files.Content) : OpenFile :=
  let decoded := content.decoded
  ⟨name, decoded.lines, decoded.lines, decoded.fault⟩

/-- A line with those that continue it, and the statement that it makes, if it makes one. -/
structure Line where
  text : List Char
  statement : Option Statement

/-- A line when it is handled: the file that is read, with all of its lines; the text of the line,
with those that continue it; the lines after these; where reading stands, and how many nodes were
read before. -/
structure Handling where
  file : String
  lines : List (List Char)
  text : List Char
  rest : List (List Char)
  place : Place
  nodes : Nat

/-- Who is told of each line when it comes, and again when its statement is put to use. -/
class Watcher (τ : Type) where
  note : Handling → τ → τ

/-- Nobody is told. -/
instance : Watcher Unit := ⟨fun _ t => t⟩

/-- What is at hand while a file is read. -/
structure Scan (τ : Type) where
  workspace : Workspace
  file : OpenFile
  /-- The neighbours of the nodes that were read. -/
  links : Array Links
  /-- A line that was read behind a help text and is counted already. -/
  raw : Option (List Char) := none
  /-- A line that is to be given out again. -/
  held : Option Line := none
  trace : τ

abbrev Parsing (τ : Type) := EStateM Failure (Scan τ)

namespace Reading

def countLines (n : Nat) : Reading Unit :=
  modify fun w => { w with place.spot.line := w.place.spot.line + n }

/-- Asks for a line after the last one. -/
def passEnd (fault : Option Text.Fault) : Reading Unit := do
  match fault with
  | some fault => fatal (.undecodableFile ((← get).place.spot.file.getD "") fault)
  | none => pure ()

/-- A line without the backslash that continues it. -/
def continued? (line : List Char) : Option (List Char) :=
  match line.reverse with
  | '\n' :: '\\' :: back => some back.reverse
  | _ => none

def fillHelp (n : NodeId) (text : String) : Reading Unit :=
  modifyNode n ({ · with help := some text })

end Reading

namespace Parsing
open Reading (countLines passEnd continued? fillHelp)
variable {α τ : Type}

/-- Performs an action that reads no lines of the file. -/
def perform (action : Reading α) : Parsing τ α := fun s =>
  match action s.workspace with
  | .ok a workspace => .ok a { s with workspace }
  | .error failure workspace => .error failure { s with workspace }

def count (n : Nat) : Parsing τ Unit := perform (countLines n)

/-- The next physical line of the file, which is not counted here. -/
def readline : Parsing τ (Option (List Char)) := do
  let file := (← get).file
  match file.rest with
  | line :: rest =>
    modify fun s => { s with file.rest := rest }
    pure (some line)
  | [] =>
    perform (passEnd file.fault)
    pure none

/-- A line with the lines that continue it. Each step but the last takes a line of the file, so one
step more than there are lines is enough. -/
def joined : Nat → List Char → Parsing τ (List Char)
  | 0, line => pure line
  | fuel + 1, line => do
    match continued? line with
    | none => pure line
    | some start =>
      let next ← readline
      count 1
      joined fuel (start ++ next.getD [])

/-- A line that was begun, to its end. -/
def finished (line : List Char) : Parsing τ (List Char) := do
  joined ((← get).file.rest.length + 1) line

/-- The next logical line of the file. -/
def readLogical : Parsing τ (Option (List Char)) := do
  match (← get).raw with
  | some line =>
    modify fun s => { s with raw := none }
    some <$> finished line
  | none =>
    match ← readline with
    | none => pure none
    | some line =>
      count 1
      some <$> finished line

section
variable [Watcher τ]

/-- Tells that a line is handled. -/
def note (text : List Char) : Parsing τ Unit :=
  modify fun s =>
    let handling : Handling :=
      ⟨s.file.name, s.file.lines, text, s.file.rest, s.workspace.place, s.workspace.model.nodes.size⟩
    { s with trace := Watcher.note handling s.trace }

/-- The line that a text makes. -/
def readText (dialect : Dialect) (text : List Char) : Parsing τ Line := do
  note text
  let statement ← perform (dialect.readLine text)
  pure ⟨text, statement⟩

/-- The next line; a line that is held comes first. -/
def nextLine (dialect : Dialect) : Parsing τ (Option Line) := do
  match (← get).held with
  | some line =>
    modify fun s => { s with held := none }
    pure (some line)
  | none =>
    match ← readLogical with
    | none => pure none
    | some text => some <$> readText dialect text

/-- Gives a line back that is not used here. -/
def giveBack (line : Line) : Parsing τ Unit := modify fun s => { s with held := some line }

/-! ### Help texts -/

/-- The first line that is not blank. A dialect that reads ahead counts every line that it asks for,
the other one those that there are. -/
def firstFilled (dialect : Dialect) : Nat → Parsing τ (Option (List Char))
  | 0 => pure none
  | fuel + 1 => do
    let line ← readline
    if dialect.readsAhead || line.isSome then count 1
    match line with
    | none => pure none
    | some line => if Text.allBlank line then firstFilled dialect fuel else pure (some line)

/-- The lines of a help text after those that were found, and the line that ends it. -/
def helpLines (dialect : Dialect) (indent : Nat) :
    Nat → List (List Char) → Parsing τ (List (List Char) × Option (List Char))
  | 0, found => pure (found, none)
  | fuel + 1, found => do
    match ← readline with
    | none => pure (found, none)
    | some line =>
      unless dialect.readsAhead do count 1
      if Text.allBlank line || indent ≤ HelpText.indentation line then
        helpLines dialect indent fuel (found ++ [HelpText.body indent line])
      else pure (found, some line)

/-- Keeps the line that ended a help text, or its statement if the dialect reads ahead. -/
def keepAfterHelp (dialect : Dialect) : Option (List Char) → Parsing τ Unit
  | none => pure ()
  | some line => do
    if dialect.readsAhead then giveBack (← readText dialect (← finished line))
    else modify fun s => { s with raw := some line }

/-- Leaves the help text of a node empty. -/
def emptyHelp (dialect : Dialect) (n : NodeId) (line : Option (List Char)) : Parsing τ Unit := do
  perform (Reading.warnOwner n .emptyHelp)
  perform (fillHelp n "")
  keepAfterHelp dialect line

/-- Gives a node the help text that a line starts, which is not blank. -/
def helpFrom (dialect : Dialect) (n : NodeId) (fuel : Nat) : Option (List Char) → Parsing τ Unit
  | none => emptyHelp dialect n none
  | some line =>
    let indent := HelpText.indentation line
    if indent = 0 then emptyHelp dialect n (some line)
    else do
      let (lines, after) ← helpLines dialect indent fuel [HelpText.body indent line]
      if dialect.readsAhead then count lines.length
      perform (fillHelp n (String.ofList (Text.trimRight lines.flatten)))
      keepAfterHelp dialect after

/-- Takes the lines of a help text from the file. -/
def takeHelp (dialect : Dialect) (n : NodeId) : Parsing τ Unit := do
  let fuel := (← get).file.rest.length + 1
  helpFrom dialect n fuel (← firstFilled dialect fuel)

/-- Reads the help text of a node. -/
def parseHelp (dialect : Dialect) (n : NodeId) : Parsing τ Unit := do
  if ((← get).workspace.model.node n).help.isSome then
    perform (Reading.warnOwner n .repeatedHelp)
  takeHelp dialect n

end
end Parsing
end Kconfig
