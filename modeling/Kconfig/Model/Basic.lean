import Kconfig.Expr.Basic
import Kconfig.Text.Escape
import Kconfig.Text.Lines
/-!
The model: symbols, choices, menu nodes, and their tree.

Every definition of a symbol or choice, every menu and every comment is a menu node; nodes are
numbered in the order of the files. A node holds the properties written at its place, its symbol or
choice those of all places. Nodes are linked to their neighbours; while files are read and when the
model is settled these links are written in place. The tree holds the node numbers below the top
node, which is node 0, as the links of a settled model lead to them.
-/
namespace Kconfig

inductive ValueType where
  | unknown | bool | string | int | hex
  deriving DecidableEq, Repr, Inhabited

namespace ValueType

/-- The name of a type. -/
def word : ValueType → String
  | .unknown => "unknown"
  | .bool => "bool"
  | .string => "string"
  | .int => "int"
  | .hex => "hex"

/-- How the values of a type are read as numbers. -/
def radix : ValueType → Text.Radix
  | .hex => .sixteen
  | .int => .ten
  | _ => .any

/-- Whether values are numbers. -/
def isNumber : ValueType → Bool
  | .int | .hex => true
  | _ => false

/-- How the type writes numbers. -/
def write : ValueType → Int → String
  | .hex, n => Text.hex n
  | _, n => Text.decimal n

end ValueType

/-- A property that holds under a condition. -/
structure Guarded (α : Type) where
  value : α
  cond : Expr
  deriving DecidableEq, Repr

/-- The two ends of a range. -/
structure Bounds where
  low : SymbolId
  high : SymbolId
  deriving DecidableEq, Repr

/-- The text that asks for a value, and when it is shown. -/
structure Prompt where
  text : String
  cond : Expr
  deriving DecidableEq, Repr

/-- What a menu node is about; a block is an `if`, and is not in the settled tree. -/
inductive Entry where
  | symbol (s : SymbolId)
  | choice (c : ChoiceId)
  | menu | comment | block
  deriving DecidableEq, Repr, Inhabited

/-- The symbol or choice of an entry. -/
def Entry.item? : Entry → Option Item
  | .symbol s => some (.symbol s)
  | .choice c => some (.choice c)
  | _ => none

structure MenuNode where
  entry : Entry
  isMenuconfig : Bool := false
  file : String := ""
  line : Nat := 0
  includes : List (String × Nat) := []
  dep : Expr := .yes
  visibleIf : Expr := .yes
  prompt : Option Prompt := none
  help : Option String := none
  defaults : List (Guarded Expr) := []
  selects : List (Guarded SymbolId) := []
  implies : List (Guarded SymbolId) := []
  ranges : List (Guarded Bounds) := []
  deriving Repr, Inhabited

/-- The neighbours of a node: the node above, the first node below, and the next one beside it. -/
structure Links where
  parent : Option NodeId := none
  first : Option NodeId := none
  next : Option NodeId := none
  deriving DecidableEq, Repr, Inhabited

/-- The text of a node's prompt. -/
def MenuNode.title (node : MenuNode) : String := (node.prompt.map (·.text)).getD ""

structure Symbol where
  name : String
  isConstant : Bool := false
  type : ValueType := .unknown
  envVar : Option String := none
  isAllnoconfigY : Bool := false
  nodes : List NodeId := []
  directDep : Expr := .no
  revDep : Expr := .no
  weakRevDep : Expr := .no
  defaults : List (Guarded Expr) := []
  selects : List (Guarded SymbolId) := []
  implies : List (Guarded SymbolId) := []
  ranges : List (Guarded Bounds) := []
  choice : Option ChoiceId := none
  deriving Repr, Inhabited

structure Choice where
  name : Option String := none
  type : ValueType := .unknown
  nodes : List NodeId := []
  directDep : Expr := .no
  defaults : List (Guarded Expr) := []
  members : List SymbolId := []
  deriving Repr, Inhabited

/-- A menu node and what stands below it. -/
inductive Tree where
  | node (id : NodeId) (children : List Tree)
  deriving Repr, Inhabited

def Tree.id : Tree → NodeId
  | .node id _ => id

def Tree.children : Tree → List Tree
  | .node _ children => children

mutual

/-- The nodes of a tree, each before those below it. -/
def Tree.ids : Tree → List NodeId
  | .node id children => id :: Tree.forestIds children

/-- The nodes of trees that stand side by side. -/
def Tree.forestIds : List Tree → List NodeId
  | [] => []
  | t :: ts => t.ids ++ Tree.forestIds ts

end

structure Model where
  symbols : Array Symbol := #[]
  /-- How many symbols can be found by name; later ones belong to expressions given by hand. -/
  known : Nat := 0
  choices : Array Choice := #[]
  nodes : Array MenuNode := #[]
  /-- The neighbours of the nodes. -/
  table : Array Links := #[]
  tree : List Tree := []
  /-- The symbols in the order of their definitions, as often as they are defined. -/
  definitions : Array SymbolId := #[]
  choiceDefinitions : Array ChoiceId := #[]
  menus : Array NodeId := #[]
  comments : Array NodeId := #[]
  defconfigList : Option Entry := none
  deriving Inhabited

namespace Model

/-- The model that knows `n` and `y` only. -/
def empty : Model where
  symbols := #[
    { name := "n", isConstant := true, type := .bool },
    { name := "y", isConstant := true, type := .bool }]
  known := 2

def symbol (m : Model) (s : SymbolId) : Symbol := m.symbols[s]?.getD default
def choice (m : Model) (c : ChoiceId) : Choice := m.choices[c]?.getD default
def node (m : Model) (n : NodeId) : MenuNode := m.nodes[n]?.getD default

def setSymbol (m : Model) (s : SymbolId) (f : Symbol → Symbol) : Model :=
  { m with symbols := m.symbols.modify s f }

def setChoice (m : Model) (c : ChoiceId) (f : Choice → Choice) : Model :=
  { m with choices := m.choices.modify c f }

def setNode (m : Model) (n : NodeId) (f : MenuNode → MenuNode) : Model :=
  { m with nodes := m.nodes.modify n f }

/-- The known symbol of a name, constant or not. -/
def find? (m : Model) (name : String) (isConstant : Bool) : Option SymbolId :=
  (List.range m.known).find? fun s =>
    let sym := m.symbol s
    sym.isConstant == isConstant && sym.name == name

/-- The known symbols, constant or not, in the order in which they were first mentioned. -/
def knownSymbols (m : Model) (isConstant : Bool) : List SymbolId :=
  (List.range m.known).filter fun s => (m.symbol s).isConstant == isConstant

/-- The choice of a name. -/
def findChoice? (m : Model) (name : String) : Option ChoiceId :=
  (List.range m.choices.size).find? fun c => (m.choice c).name == some name

/-- The first occurrence of each element. -/
def firstOccurrences {α : Type} [BEq α] (xs : List α) : List α :=
  (xs.foldl (fun seen x => if seen.contains x then seen else x :: seen) []).reverse

/-- The defined symbols, in the order of their first definitions. -/
def defined (m : Model) : List SymbolId := firstOccurrences m.definitions.toList

/-- The choices, in the order of their first definitions. -/
def definedChoices (m : Model) : List ChoiceId := firstOccurrences m.choiceDefinitions.toList

/-- The nodes below the top node in order. -/
def order (m : Model) : List NodeId := Tree.forestIds m.tree

/-- The symbol of a node, if it has one. -/
def symbolOf? (m : Model) (n : NodeId) : Option SymbolId :=
  match (m.node n).entry with
  | .symbol s => some s
  | _ => none

/-- The nodes of an item. -/
def itemNodes (m : Model) : Item → List NodeId
  | .symbol s => (m.symbol s).nodes
  | .choice c => (m.choice c).nodes

/-- The type of an item. -/
def itemType (m : Model) : Item → ValueType
  | .symbol s => (m.symbol s).type
  | .choice c => (m.choice c).type

/-- File and line of a node. -/
def place (m : Model) (n : NodeId) : String := s!"{(m.node n).file}:{(m.node n).line}"

/-- A choice as expressions show it. -/
def choiceWord (m : Model) (c : ChoiceId) : String :=
  match (m.choice c).name with
  | some name => if name.isEmpty then "<choice>" else s!"<choice {name}>"
  | none => "<choice>"

/-- An item as expressions show it: constants but `n` and `y` in quotes. -/
def itemText (m : Model) : Item → String
  | .symbol s =>
    let sym := m.symbol s
    if sym.isConstant && sym.name != "n" && sym.name != "y" then s!"\"{Text.escaped sym.name}\""
    else sym.name
  | .choice c => m.choiceWord c

/-- An expression as messages show it. -/
def exprText (m : Model) (e : Expr) : String := e.render m.itemText

/-- The places that define an item. -/
def placesText (m : Model) (i : Item) : String :=
  match m.itemNodes i with
  | [] => "(undefined)"
  | nodes => "(defined at " ++ ", ".intercalate (nodes.map m.place) ++ ")"

/-- An item with the places that define it, for a message. -/
def owner (m : Model) (i : Item) : String :=
  (match i with
    | .symbol s => (m.symbol s).name
    | .choice c => m.choiceWord c) ++ " " ++ m.placesText i

end Model
end Kconfig
