import Kconfig.Model.Iteration
import Kconfig.Values.Rule
/-!
What configurations, C headers and minimal configurations hold.

Each is a plan over values. A configuration follows the links of the menu nodes: every symbol where
it is visited first, a heading for each visible menu and comment, and a remark where a menu ends. A
header and a minimal configuration go through the symbols in the order of their definitions.
-/
namespace Kconfig

/-- How names and texts are put into files. -/
structure FileStyle where
  /-- What stands before every symbol's name. -/
  mark : String := "CONFIG_"
  header : String := ""

namespace Model
open Plan

/-- The assignment of a value to a symbol. -/
def assignmentLine (style : FileStyle) (sym : Symbol) (value : String) : String :=
  match sym.type with
  | .bool =>
    if value = "n" then s!"# {style.mark}{sym.name} is not set\n"
    else s!"{style.mark}{sym.name}={value}\n"
  | .int | .hex => s!"{style.mark}{sym.name}={value}\n"
  | .string | .unknown => s!"{style.mark}{sym.name}=\"" ++ Text.escaped value ++ "\"\n"

/-- The line that a configuration holds for a symbol, empty if it holds none. -/
def configLine (m : Model) (style : FileStyle) (s : SymbolId) : Plan String :=
  .ask (.text (.symbol s)) fun a =>
    return if a.isWritten then assignmentLine style (m.symbol s) a.value else ""

/-- A configuration as far as it is written, and whether a menu has just ended. -/
structure Page where
  text : String
  menuEnded : Bool := false

/-- Whether a menu or comment is shown. -/
def isShown (m : Model) (node : MenuNode) : Plan Bool := do
  if ← m.holds node.dep then
    match node.entry with
    | .menu => m.holds node.visibleIf
    | .comment => return true
    | _ => return false
  else return false

/-- The page with the line of a symbol, if configurations hold one. -/
def addLine (m : Model) (style : FileStyle) (page : Page) (s : SymbolId) : Plan Page := do
  let line ← m.configLine style s
  if line.isEmpty then return page
  return ⟨page.text ++ (if page.menuEnded then "\n" else "") ++ line, false⟩

/-- The page with what a node adds to it, and the symbols visited so far: a symbol has its line
where it is visited first. -/
def writeNode (m : Model) (style : FileStyle) (seen : List SymbolId) (page : Page) (n : NodeId) :
    Plan (List SymbolId × Page) := do
  let node := m.node n
  match node.entry with
  | .symbol s =>
    if seen.contains s then return (seen, page)
    return (s :: seen, ← m.addLine style page s)
  | _ =>
    if ← m.isShown node then return (seen, ⟨page.text ++ s!"\n#\n# {node.title}\n#\n", false⟩)
    return (seen, page)

/-- The page with the remark that a menu ends. The top node is no menu that is written. -/
def endMenu (m : Model) (page : Page) (n : NodeId) : Plan Page := do
  let node := m.node n
  if node.entry = .menu then
    if (← m.isShown node) && n ≠ 0 then
      return ⟨page.text ++ s!"# end of {node.title}\n", true⟩
  return page

/-- The node to go to when everything below a node has been visited, if there is one, and the page
with the remarks of the menus that end before it. So many nodes may be passed on the way up. -/
def leaveMenus (m : Model) : Nat → Page → NodeId → Plan (Option (Page × Option NodeId))
  | 0, _, _ => return none
  | most + 1, page, n =>
    let links := m.linksOf n
    match links.next, links.parent with
    | some k, _ => return some (page, some k)
    | none, some p => do leaveMenus m most (← m.endMenu page p) p
    | none, none => return some (page, none)

/-- The node to go to after a node, if there is one, and the page when one comes to it. -/
def goOn (m : Model) (page : Page) (n : NodeId) : Plan (Option (Page × Option NodeId)) :=
  match (m.linksOf n).first with
  | some k => return some (page, some k)
  | none => m.leaveMenus m.longestWay page n

/-- The page with what the nodes after a node add to it, `seen` being the symbols visited so far.
The walk may go through so many nodes. -/
def writeWithin (m : Model) (style : FileStyle) :
    Nat → List SymbolId → Page → NodeId → Plan (Option Page)
  | 0, _, _, _ => return none
  | most + 1, seen, page, n => do
    match ← m.goOn page n with
    | none => return none
    | some (page, none) => return some page
    | some (page, some k) =>
      let (seen, page) ← m.writeNode style seen page k
      writeWithin m style most seen page k

/-- The text of a configuration: the header, and what the nodes add to it. It is empty if the walk
never ends, as no walk does in a model that was read. -/
def configText (m : Model) (style : FileStyle) : Plan String := do
  let page? ← m.writeWithin style m.longestWay [] ⟨style.header, false⟩ 0
  return (page?.map Page.text).getD ""

/-- The definition of a symbol's value in a header. -/
def definitionLine (style : FileStyle) (sym : Symbol) (value : String) : String :=
  match sym.type with
  | .bool => if value = "y" then s!"#define {style.mark}{sym.name} 1\n" else ""
  | .string => s!"#define {style.mark}{sym.name} \"" ++ Text.escaped value ++ "\"\n"
  | .int => s!"#define {style.mark}{sym.name} {value}\n"
  | .hex =>
    let marked := "0x".isPrefixOf value || "0X".isPrefixOf value
    s!"#define {style.mark}{sym.name} " ++ (if marked then "" else "0x") ++ value ++ "\n"
  | .unknown => ""

/-- Lines one after the other. -/
def joinLines (line : SymbolId → Plan String) (text : String) : List SymbolId → Plan String
  | [] => return text
  | s :: more => do joinLines line (text ++ (← line s)) more

/-- The text of a C header. -/
def headerText (m : Model) (style : FileStyle) : Plan String :=
  joinLines (fun s => .ask (.text (.symbol s)) fun a =>
    return if a.isWritten then definitionLine style (m.symbol s) a.value else "")
    style.header m.defined

/-- The value that a symbol has by its defaults, `select` and `imply`; choice members have `n`. -/
def defaultText (m : Model) (s : SymbolId) : Plan String := do
  let sym := m.symbol s
  match sym.type with
  | .unknown => return ""
  | .bool =>
    if sym.choice.isSome then return "n"
    let default ← match ← m.firstActive sym.defaults with
      | some p => m.holds p.value
      | none => pure false
    let isSelected ← m.holds sym.revDep
    let isImplied ← m.holds sym.weakRevDep
    return levelWord (isSelected || isImplied || default)
  | _ => return (← m.activeDefault s).getD ""

/-- Whether the user can make no difference to a symbol. -/
def isFixed (m : Model) (s : SymbolId) : Plan Bool := do
  let sym := m.symbol s
  if sym.choice.isSome then return false
  let isVisible ← visible (.symbol s)
  let isSelected ← m.holds sym.revDep
  return !isVisible || isSelected

/-- Whether a symbol is what its choice selects without the user. -/
def isOwnSelection (m : Model) (s : SymbolId) : Plan Bool := do
  let sym := m.symbol s
  match sym.choice with
  | none => return false
  | some c =>
    if (← m.ownSelection c) ≠ some s ∨ sym.type ≠ .bool then return false
    level (.symbol s)

/-- The line of a symbol in a minimal configuration, empty if its value follows from the rest. -/
def minimalLine (m : Model) (style : FileStyle) (s : SymbolId) : Plan String := do
  if ← m.isFixed s then return ""
  let value ← text (.symbol s)
  if value = (← m.defaultText s) then return ""
  if ← m.isOwnSelection s then return ""
  m.configLine style s

/-- The text of a minimal configuration. -/
def minimalText (m : Model) (style : FileStyle) : Plan String :=
  joinLines (m.minimalLine style) style.header m.defined

end Model
end Kconfig
