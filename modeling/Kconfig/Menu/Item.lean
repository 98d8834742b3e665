import Kconfig.Config.Basic
import Kconfig.Model.Definition
import Kconfig.Model.Links
/-!
The menu for a user interface.

A menu item is a node that is shown, with the value that a control would show. Nodes below symbols
are shown beside them. Every item stands below the item of its node's parent, or at the top when the
parent has none; below a choice the items are its options.
-/
namespace Kconfig

inductive ItemKind where
  | menu | string | bool | int | hex | choice | comment
  deriving DecidableEq, Repr

/-- The word of a kind. -/
def ItemKind.word : ItemKind → String
  | .menu => "MENU"
  | .string => "STRING"
  | .bool => "BOOL"
  | .int => "INT"
  | .hex => "HEX"
  | .choice => "CHOICE"
  | .comment => "COMMENT"

/-- What a menu shows of a node. -/
structure ItemRow where
  kind : ItemKind
  node : NodeId
  name : String
  prompt : String
  value : Json
  help : String
  info : String
  range : Option (Int × Int) := none

inductive MenuItem where
  | mk (row : ItemRow) (children : List MenuItem)

namespace MenuItem

mutual

/-- An item as JSON. -/
def toJson : MenuItem → Json
  | .mk row children =>
    let below := itemsToJson children
    let isChoice := row.kind = .choice
    let isNumber := row.kind = .int ∨ row.kind = .hex
    .obj ([("type", .str row.kind.word), ("id", .ofNat row.node), ("name", .str row.name),
      ("prompt", .str row.prompt), ("control_value", row.value), ("help", .str row.help),
      ("info", .str row.info), ("children", .arr (if isChoice then [] else below))] ++
      (if isNumber then
        [("range", match row.range with
          | some (low, high) => .arr [.int low, .int high]
          | none => .null)]
      else []) ++
      if isChoice then [("options", .arr below)] else [])

def itemsToJson : List MenuItem → List Json
  | [] => []
  | i :: is => toJson i :: itemsToJson is

end

/-- Items with the item they stand under, put together below one of them; `fuel` bounds how deep
items stand. -/
def assemble : Nat → List (Option NodeId × ItemRow) → Option NodeId → List MenuItem
  | 0, _, _ => []
  | fuel + 1, rows, parent =>
    (rows.filter (·.1 == parent)).map fun (_, row) => .mk row (assemble fuel rows (some row.node))

end MenuItem

namespace Model
open Plan

/-- Whether a user sees a node. -/
def isSeen (m : Model) (n : NodeId) : Plan Bool := do
  let node := m.node n
  match node.prompt with
  | none => return false
  | some p =>
    if ← m.holds p.cond then
      if node.entry = .menu then m.holds node.visibleIf else return true
    else return false

/-- The range that a menu shows: the one that holds now, if both its ends are numbers. -/
def shownRange (m : Model) (s : SymbolId) : Plan (Option (Int × Int)) := do
  let sym := m.symbol s
  match ← m.firstActive sym.ranges with
  | none => return none
  | some p =>
    match Text.readInt sym.type.radix (← text (.symbol p.value.low)).toList with
    | none => return none
    | some low =>
      match Text.readInt sym.type.radix (← text (.symbol p.value.high)).toList with
      | none => return none
      | some high => return some (low, high)

/-- The prompt of a choice's selected member, from inside the choice if it has one there. -/
def selectedPrompt (m : Model) (n : NodeId) (c : ChoiceId) : Plan (Option String) := do
  match ← selection c with
  | none => return none
  | some s =>
    let prompted := (m.symbol s).nodes.filter fun k => (m.node k).prompt.isSome
    let inside := prompted.find? fun k => (m.linksOf k).parent == some n
    return (inside.or prompted.head?).bind fun k => (m.node k).prompt.map (·.text)

/-- The row of a node that has one: it has a prompt, its symbol a type, its choice is `y`. -/
def row (m : Model) (n : NodeId) : Plan (Option ItemRow) := do
  let node := m.node n
  let some p := node.prompt | return none
  let base : ItemRow :=
    { kind := .menu, node := n, name := p.text, prompt := p.text, value := .str ""
      help := node.help.getD "", info := m.nodeText m.itemText n }
  match node.entry with
  | .menu => return some base
  | .comment => return some { base with kind := .comment, prompt := s!"*** {p.text} ***" }
  | .choice c =>
    if ← level (.choice c) then
      let selected ← m.selectedPrompt n c
      return some { base with kind := .choice, value := Json.ofText? selected }
    return none
  | .symbol s =>
    let sym := m.symbol s
    let base := { base with name := sym.name }
    match sym.type with
    | .bool => return some { base with kind := .bool, value := .bool (← level (.symbol s)) }
    | .string => return some { base with kind := .string, value := .str (← text (.symbol s)) }
    | .int =>
      let value := (Text.readInt .ten (← text (.symbol s)).toList).elim .null Json.int
      return some { base with kind := .int, value, range := ← m.shownRange s }
    | .hex =>
      let value ← text (.symbol s)
      let marked := "0x".isPrefixOf value || "0X".isPrefixOf value
      let value := Json.str ((if marked then "" else "0x") ++ value)
      return some { base with kind := .hex, value, range := ← m.shownRange s }
    | .unknown => return none
  | .block => return none

mutual

/-- What a tree shows at its level: its node, and below a symbol what stands there. An unseen symbol
is shown when something below it is. -/
def shownTree (m : Model) (showsAll : Bool) : Tree → Plan (List Tree)
  | .node n children => do
    let isSeen ← if showsAll then pure true else m.isSeen n
    if (m.symbolOf? n).isSome && !children.isEmpty then
      let below ← shownForest m showsAll children
      return if isSeen || !below.isEmpty then .node n children :: below else []
    else return if isSeen then [.node n children] else []

def shownForest (m : Model) (showsAll : Bool) : List Tree → Plan (List Tree)
  | [] => return []
  | t :: ts => do
    let first ← shownTree m showsAll t
    let rest ← shownForest m showsAll ts
    return first ++ rest

end

/-- Rows with the nodes they stand under. -/
abbrev Rows := List (Option NodeId × ItemRow)

/-- The rows with that of a node, under its parent if that has a row. -/
def addRow (m : Model) (rows : Rows) (n : NodeId) : Plan Rows := do
  match ← m.row n with
  | none => return rows
  | some row =>
    let parent := (m.linksOf n).parent.filter fun p => rows.any fun r => r.2.node == p
    return rows ++ [(parent, row)]

/-- Adds the rows of trees that are shown, each followed by those below it; `fuel` bounds how deep
trees stand. -/
def addRows (m : Model) (showsAll : Bool) : Nat → Rows → List Tree → Plan Rows
  | 0, rows, _ => return rows
  | fuel + 1, rows, trees => do
    let shown ← m.shownForest showsAll trees
    shown.foldlM (fun rows t => do
      let rows ← m.addRow rows t.id
      if (m.symbolOf? t.id).isNone && !t.children.isEmpty then
        addRows m showsAll fuel rows t.children
      else return rows) rows

/-- The rows of the menu in order. -/
def rows (m : Model) (showsAll : Bool) : Plan Rows := m.addRows showsAll m.nodes.size [] m.tree

end Model

/-- The menu that rows make up. -/
def MenuItem.ofRows (rows : Model.Rows) : List MenuItem := assemble (rows.length + 1) rows none

end Kconfig
