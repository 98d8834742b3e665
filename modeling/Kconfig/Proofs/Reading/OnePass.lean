import Kconfig.Reading.Files
/-!
Kconfig files read in one pass.

Reading a file in one pass, each line is looked at once: it is known from the lines that are left
what a help text takes of them, so no line comes back. The blocks that are open stand on a stack,
and the entries become trees.
-/
namespace Kconfig

structure HelpText where
  text : String
  /-- How many lines belong to it, blank lines before it included. -/
  lines : Nat
  deriving DecidableEq, Repr

namespace HelpText

/-- The help text that lines start with. -/
def read (lines : List (List Char)) : HelpText :=
  let blanks := lines.takeWhile Text.allBlank
  match lines.dropWhile Text.allBlank with
  | [] => ⟨"", blanks.length⟩
  | first :: more =>
    let indent := indentation first
    if indent = 0 then ⟨"", blanks.length⟩
    else
      let more := more.takeWhile fun line => Text.allBlank line || indent ≤ indentation line
      let text := ((first :: more).map (body indent)).flatten
      ⟨String.ofList (Text.trimRight text), blanks.length + 1 + more.length⟩

end HelpText

namespace Reading

/-- Gives a node the help text that lines start with. -/
def setHelp (n : NodeId) (help : HelpText) : Reading Unit := do
  if help.text.isEmpty then warnOwner n .emptyHelp
  modifyNode n ({ · with help := some help.text })

/-- An open block: its node, and the trees that stand before it, last first. -/
structure Level where
  kind : BlockKind
  node : NodeId
  before : List Tree

/-- A file as far as it is read: the entry whose properties may follow, the open blocks, and the
trees of the innermost one, last first. -/
structure Layout where
  entry : Option NodeId := none
  levels : List Level := []
  trees : List Tree := []

/-- The lines of a file that are left, and what is wrong after them. -/
structure Remaining where
  lines : List (List Char)
  fault : Option Text.Fault

/-- A line with the lines that continue it, and the lines left. -/
def joinLines (fault : Option Text.Fault) (line : List Char) :
    List (List Char) → Reading (List Char × List (List Char))
  | [] => do
    match continued? line with
    | none => pure (line, [])
    | some line =>
      passEnd fault
      countLines 1
      pure (line, [])
  | next :: more => do
    match continued? line with
    | none => pure (line, next :: more)
    | some line =>
      countLines 1
      joinLines fault (line ++ next) more

/-- Ends the entry that properties may follow. -/
def closeEntry (layout : Layout) : Reading Layout := do
  if let some n := layout.entry then warnPromptless n
  pure { layout with entry := none }

/-- The layout with a node that stands alone. -/
def Layout.add (layout : Layout) (n : NodeId) : Layout :=
  { layout with entry := some n, trees := .node n [] :: layout.trees }

/-- The layout with a block that its node opens. -/
def Layout.push (layout : Layout) (kind : BlockKind) (n : NodeId) (entry : Option NodeId) :
    Layout where
  entry := entry
  levels := ⟨kind, n, layout.trees⟩ :: layout.levels
  trees := []

/-- Reads the trees of the file at a path. -/
abbrev FileReader := String → Reading (List Tree)

/-- Puts a statement that is no property in its place. -/
def place (readFile : FileReader) (layout : Layout) : Statement → Reading Layout
  | .config isMenuconfig name => do
    let s ← name
    modifyModel fun m => { m with definitions := m.definitions.push s }
    let n ← addNode (.symbol s) isMenuconfig none
    modifyModel fun m => m.setSymbol s fun sym => { sym with nodes := sym.nodes ++ [n] }
    pure (layout.add n)
  | .menu prompt => do
    let text ← prompt
    let n ← addNode .menu true (some ⟨text, .yes⟩)
    modifyModel fun m => { m with menus := m.menus.push n }
    pure (layout.push .menu n (some n))
  | .comment prompt => do
    let text ← prompt
    let n ← addNode .comment false (some ⟨text, .yes⟩)
    modifyModel fun m => { m with comments := m.comments.push n }
    pure (layout.add n)
  | .choice name => do
    let c ← choiceOf (← name)
    modifyModel fun m => { m with choiceDefinitions := m.choiceDefinitions.push c }
    let n ← addNode (.choice c) true none
    modifyModel fun m => m.setChoice c fun ch => { ch with nodes := ch.nodes ++ [n] }
    pure (layout.push .choice n (some n))
  | .block cond => do
    let cond ← cond
    let n ← addNode .block false none
    modifyNode n ({ · with dep := cond })
    pure (layout.push .condition n none)
  | .close kind tail => do
    match layout.levels with
    | [] => problem (.noOpenBlock kind)
    | level :: levels =>
      if level.kind ≠ kind then problem (.noOpenBlock kind)
      tail
      pure { levels, trees := .node level.node layout.trees.reverse :: level.before }
  | .mainmenu prompt => do
    let text ← prompt
    modifyNode 0 ({ · with prompt := some ⟨text, .yes⟩ })
    pure layout
  | .source isRelative isRequired path => do
    let mut trees := layout.trees
    for file in ← sourcesOf isRelative isRequired (← path) do
      trees := (← readFile file).reverse ++ trees
    pure { layout with trees }
  | _ => problem .unknownConstruct

/-- Takes the lines of a help text, and gives the lines left. -/
def takeHelp (dialect : Dialect) (n : NodeId) (rest : Remaining) : Reading (List (List Char)) := do
  let help := HelpText.read rest.lines
  countLines help.lines
  let more := rest.lines.drop help.lines
  if more.isEmpty then
    passEnd rest.fault
    if dialect.readsAhead then countLines 1
  setHelp n help
  pure more

/-- Reads the help text of a node, and gives the lines left. -/
def readHelp (dialect : Dialect) (n : NodeId) (rest : Remaining) : Reading (List (List Char)) := do
  if ((← get).model.node n).help.isSome then warnOwner n .repeatedHelp
  takeHelp dialect n rest

/-- Reads the lines of a file; `fuel` is at least their number. -/
def readLines (dialect : Dialect) (readFile : FileReader) (fault : Option Text.Fault) :
    Nat → Layout → List (List Char) → Reading Layout
  | 0, layout, _ => pure layout
  | _, layout, [] => do
    passEnd fault
    closeEntry layout
  | fuel + 1, layout, line :: more => do
    countLines 1
    let (line, more) ← joinLines fault line more
    match ← dialect.readLine line, layout.entry with
    | none, _ => readLines dialect readFile fault fuel layout more
    | some .help, some n =>
      let more ← readHelp dialect n ⟨more, fault⟩
      readLines dialect readFile fault fuel layout more
    | some statement, some n =>
      if statement.isProperty then
        addProperty n statement
        readLines dialect readFile fault fuel layout more
      else
        let layout ← place readFile (← closeEntry layout) statement
        readLines dialect readFile fault fuel layout more
    | some statement, none =>
      let layout ← place readFile layout statement
      readLines dialect readFile fault fuel layout more

/-- The trees of a file that was opened. -/
def readContent (dialect : Dialect) (readFile : FileReader) (content : Files.Content) :
    Reading (List Tree) := do
  let decoded := content.decoded
  let lines := decoded.lines
  let layout ← readLines dialect readFile decoded.fault (lines.length + 1) {} lines
  match layout.levels with
  | [] => pure layout.trees.reverse
  | level :: _ => fatal (.openBlock level.kind ((← get).place.spot.file.getD ""))

/-- Reads a file that others include; `depth` bounds how deep files may stand in each other. -/
def readFileAt (dialect : Dialect) : Nat → FileReader
  | 0, _ => throw .endless
  | depth + 1, path => do
    let content ← enterFile path
    let trees ← readContent dialect (readFileAt dialect depth) content
    leaveFile
    pure trees

/-- Reads the Kconfig files from the top file on: the trees below the top node. -/
def readFiles (dialect : Dialect) (name : String) : Reading (List Tree) := do
  let w ← get
  let path := Files.join w.settings.srctree name
  match w.host.files.read path with
  | .error condition => throw (.file condition path)
  | .ok content => readContent dialect (readFileAt dialect includeLimit) content

end Reading
end Kconfig
