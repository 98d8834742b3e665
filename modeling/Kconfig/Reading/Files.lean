import Kconfig.Files.Glob
import Kconfig.Reading.Scan
/-!
Kconfig files as a menu tree.

Each entry of a file gets a node that is linked to the node before it. Between the first and the last
line of a block stand the entries below the block's node; they are linked to that node first, and
become what is below it when the block ends. The entries of a file that is included take the place of
the line that includes it.
-/
namespace Kconfig

/-- How often files may include each other: a bound that only spellings that grow can reach. -/
def includeLimit : Nat := 1000

/-- The kind of the block that an entry opens, if it opens one. -/
def Statement.block? : Statement → Option BlockKind
  | .menu _ => some .menu
  | .choice _ => some .choice
  | .block _ => some .condition
  | _ => none

/-- Whether properties may follow an entry. -/
def Statement.takesProperties : Statement → Bool
  | .config .. | .menu _ | .comment _ | .choice _ => true
  | _ => false

namespace Reading

/-- The choice of a name, or a new one. -/
def choiceOf (name : Option String) : Reading ChoiceId := do
  let m := (← get).model
  match name.bind m.findChoice? with
  | some c => pure c
  | none =>
    modifyModel fun m => { m with choices := m.choices.push { name } }
    pure m.choices.size

/-- The node of an entry. -/
def addEntry : Statement → Reading NodeId
  | .config isMenuconfig name => do
    let s ← name
    modifyModel fun m => { m with definitions := m.definitions.push s }
    let n ← addNode (.symbol s) isMenuconfig none
    modifyModel fun m => m.setSymbol s fun sym => { sym with nodes := sym.nodes ++ [n] }
    pure n
  | .menu prompt => do
    let text ← prompt
    let n ← addNode .menu true (some ⟨text, .yes⟩)
    modifyModel fun m => { m with menus := m.menus.push n }
    pure n
  | .comment prompt => do
    let text ← prompt
    let n ← addNode .comment false (some ⟨text, .yes⟩)
    modifyModel fun m => { m with comments := m.comments.push n }
    pure n
  | .choice name => do
    let c ← choiceOf (← name)
    modifyModel fun m => { m with choiceDefinitions := m.choiceDefinitions.push c }
    let n ← addNode (.choice c) true none
    modifyModel fun m => m.setChoice c fun ch => { ch with nodes := ch.nodes ++ [n] }
    pure n
  | .block cond => do
    let cond ← cond
    let n ← addNode .block false none
    modifyNode n ({ · with dep := cond })
    pure n
  | _ => problem .unknownConstruct

/-- Warns if a symbol should be a menu but has no prompt. -/
def warnPromptless (n : NodeId) : Reading Unit := do
  let node := (← get).model.node n
  match node.entry with
  | .symbol _ => if node.isMenuconfig && node.prompt.isNone then warnOwner n .promptlessMenuconfig
  | _ => pure ()

/-- Gives the top node its prompt. -/
def setTitle (prompt : Reading String) : Reading Unit := do
  let text ← prompt
  modifyNode 0 ({ · with prompt := some ⟨text, .yes⟩ })

/-- The files that an inclusion names. -/
def sourcesOf (isRelative isRequired : Bool) (path : String) : Reading (List String) := do
  let w ← get
  let spot := w.place.spot
  let pattern := if isRelative then Files.join (Files.parent (spot.file.getD "")) path else path
  let files := w.host.files
  let found := files.glob (Files.join (files.absolute w.settings.srctree ++ "/") pattern)
  if found.isEmpty && isRequired then fatal (.sourceNotFound spot pattern w.settings.srctree)
  pure found

/-- The name of a file as seen from the source tree. -/
def nameInTree (files : Files.Store) (srctree path : String) : String :=
  let start := (files.absolute srctree ++ "/").toList
  if start.isPrefixOf path.toList then String.ofList (path.toList.drop start.length) else path

/-- Enters a file from the line that is read. -/
def enterFile (path : String) : Reading Files.Content := do
  let w ← get
  let spot := w.place.spot
  let name := nameInTree w.host.files w.settings.srctree path
  let includes := w.place.includes ++ [(spot.file.getD "", spot.line)]
  set { w with files := w.files ++ [name] }
  if includes.any (·.1 == name) then fatal (.recursiveSource spot name includes)
  match w.host.files.read path with
  | .error condition => throw (.sourceFile condition path spot)
  | .ok content =>
    modify fun w => { w with
      place := { spot := { spot with file := some name, line := 0 }, includes } }
    pure content

/-- Goes back to the line that included the file. -/
def leaveFile : Reading Unit :=
  modify fun w =>
    match w.place.includes.getLast? with
    | none => w
    | some (file, line) => { w with
      place.spot.file := some file
      place.spot.line := line
      place.includes := w.place.includes.dropLast }

end Reading

namespace Parsing
open Reading (problem sourcesOf nameInTree)
variable {τ : Type}

def setLinks (n : NodeId) (f : Links → Links) : Parsing τ Unit :=
  modify fun s => { s with links := s.links.modify n f }

/-- Links a node to the one after it, or to none. -/
def setNext (n : NodeId) (next : Option NodeId) : Parsing τ Unit := setLinks n ({ · with next })

/-- What stands after a node becomes what stands below it. -/
def moveBelow (n : NodeId) : Parsing τ Unit := setLinks n fun l => { l with first := l.next }

/-- A new node below another one. -/
def create (parent : NodeId) (statement : Statement) : Parsing τ NodeId := do
  let n ← perform (Reading.addEntry statement)
  modify fun s => { s with links := s.links.push { parent := some parent } }
  pure n

/-- Reads a file, given the node around its entries and the one before them: the last of its
nodes. -/
abbrev FileReader (τ : Type) := String → NodeId → NodeId → Parsing τ NodeId

section
variable [Watcher τ] (dialect : Dialect)

/-- Reads the properties of a node; the first other statement is given back. -/
def parseProps (n : NodeId) : Nat → Parsing τ Unit
  | 0 => throw .endless
  | fuel + 1 => do
    match ← nextLine dialect with
    | none => pure ()
    | some line =>
      match line.statement with
      | none => parseProps n fuel
      | some statement =>
        note line.text
        match statement with
        | .help => do
          parseHelp dialect n
          parseProps n fuel
        | statement =>
          if statement.isProperty then do
            perform (Reading.addProperty n statement)
            parseProps n fuel
          else giveBack line

/-- Reads the properties of an entry, if it may have some. -/
def parseOwn (statement : Statement) (n : NodeId) (fuel : Nat) : Parsing τ Unit := do
  if statement.takesProperties then
    parseProps dialect n fuel
    perform (Reading.warnPromptless n)

/-- Reads what stands below an entry, if it opens a block. -/
def parseBelow (parse : BlockKind → Parsing τ NodeId) (statement : Statement) (n : NodeId) :
    Parsing τ Unit := do
  match statement.block? with
  | none => pure ()
  | some kind =>
    let _ ← parse kind
    moveBelow n

/-- Reads the files of an inclusion one after the other. -/
def parseFiles (readFile : FileReader τ) (parent : NodeId) :
    List String → NodeId → Parsing τ NodeId
  | [], prev => pure prev
  | path :: paths, prev => do parseFiles readFile parent paths (← readFile path parent prev)

/-- Reads the entries of a file, or of a block up to its end, and links them after a node: the last
of them. -/
def parseBlock (readFile : FileReader τ) :
    Nat → Option BlockKind → NodeId → NodeId → Parsing τ NodeId
  | 0, _, _, _ => throw .endless
  | fuel + 1, kind, parent, prev => do
    match ← nextLine dialect with
    | none =>
      match kind with
      | none => pure prev
      | some kind =>
        perform do Reading.fatal (.openBlock kind ((← get).place.spot.file.getD ""))
    | some line =>
      match line.statement with
      | none => parseBlock readFile fuel kind parent prev
      | some statement =>
        note line.text
        match statement with
        | .source isRelative isRequired path => do
          let paths ← perform do sourcesOf isRelative isRequired (← path)
          parseBlock readFile fuel kind parent (← parseFiles readFile parent paths prev)
        | .close closed tail => do
          if kind ≠ some closed then perform (problem (.noOpenBlock closed))
          perform tail
          setNext prev none
          pure prev
        | .mainmenu prompt => do
          perform (Reading.setTitle prompt)
          parseBlock readFile fuel kind parent prev
        | statement => do
          let n ← create parent statement
          parseOwn dialect statement n fuel
          parseBelow (fun kind => parseBlock readFile fuel (some kind) n n) statement n
          setNext prev (some n)
          parseBlock readFile fuel kind parent n

/-- Reads all of a file that was opened. -/
def parseContent (readFile : FileReader τ) (parent prev : NodeId) : Parsing τ NodeId := do
  parseBlock dialect readFile ((← get).file.rest.length + 1) none parent prev

/-- Reads a file that others include; `depth` bounds how deep files may stand in each other. -/
def parseFileAt : Nat → FileReader τ
  | 0, _, _, _ => throw .endless
  | depth + 1, path, parent, prev => do
    let s ← get
    let name := nameInTree s.workspace.host.files s.workspace.settings.srctree path
    let content ← perform (Reading.enterFile path)
    modify fun s => { s with file := .start name content }
    let last ← parseContent dialect (parseFileAt depth) parent prev
    perform Reading.leaveFile
    modify fun s' => { s' with file := s.file }
    pure last

/-- Reads the top file; what stands after the top node then stands below it. -/
def parseTop : Parsing τ Unit := do
  let last ← parseContent dialect (parseFileAt dialect includeLimit) 0 0
  moveBelow 0
  setNext last none
  setNext 0 none

end

/-- The top file, of whose lines none is read. -/
def scan (w : Workspace) (name : String) (content : Files.Content) (trace : τ) : Scan τ where
  workspace := w
  file := .start name content
  links := #[{}]
  trace := trace

end Parsing

namespace Reading

/-- Parses the top file: the neighbours of the nodes. -/
def parse (dialect : Dialect) (name : String) (content : Files.Content) : Reading (Array Links) :=
  fun w =>
    match Parsing.parseTop dialect (Parsing.scan w name content ()) with
    | .ok _ s => .ok s.links s.workspace
    | .error failure s => .error failure s.workspace

/-- Reads the Kconfig files from the top file on. -/
def readLinks (dialect : Dialect) (name : String) : Reading (Array Links) := do
  let w ← get
  let path := Files.join w.settings.srctree name
  match w.host.files.read path with
  | .error condition => throw (.file condition path)
  | .ok content => parse dialect name content

end Reading
end Kconfig
