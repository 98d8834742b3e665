import Kconfig.Config.Basic
import Kconfig.Model.Links
/-!
One-line descriptions of symbols, choices, nodes, variables and whole configurations.
-/
namespace Kconfig

/-- A description from its parts. -/
def describe (parts : List String) : String := "<" ++ ", ".intercalate parts ++ ">"

/-- A text in double quotes, as it is. -/
def inQuotes (s : String) : String := "\"" ++ s ++ "\""

/-- Whether something is on. -/
def switchWord (isOn : Bool) : String := if isOn then "enabled" else "disabled"

/-- A macro variable, described. -/
def Variable.description (v : Variable) : String :=
  describe [s!"variable {v.name}", if v.isRecursive then "recursive" else "immediate",
    s!"value '{v.value}'"]

namespace Model
open Plan

/-- The prompts of an item. -/
def promptTexts (m : Model) (i : Item) : List String :=
  (m.itemNodes i).filterMap fun n => (m.node n).prompt.map fun p => inQuotes p.text

/-- The parts that tell what is special about a symbol. -/
def symbolMarks (m : Model) (s : SymbolId) : List String :=
  let sym := m.symbol s
  (if sym.choice.isSome then ["choice symbol"] else []) ++
    (if sym.isAllnoconfigY then ["allnoconfig_y"] else []) ++
    (if m.defconfigList = some (.symbol s) then ["is the defconfig_list symbol"] else []) ++
    match sym.envVar with
    | some var => ["from environment variable " ++ var]
    | none => []

/-- A symbol, described. -/
def describeSymbol (m : Model) (u : UserValues) (s : SymbolId) : Plan String := do
  let sym := m.symbol s
  let shown := fun v => if sym.type = .bool then v else inQuotes v
  let value ← text (.symbol s)
  let own ←
    if sym.isConstant then pure []
    else do
      let isVisible ← visible (.symbol s)
      let isMet ← m.holds sym.directDep
      let given := match u.value s with
        | some v => ["user value " ++ shown v.asText]
        | none => []
      pure (given ++ ["visibility " ++ levelWord isVisible] ++ m.symbolMarks s ++
        ["direct deps " ++ levelWord isMet])
  let places :=
    if sym.nodes.isEmpty then [if sym.isConstant then "constant" else "undefined"]
    else sym.nodes.map m.place
  return describe <| ["symbol " ++ sym.name, sym.type.word] ++ m.promptTexts (.symbol s) ++
    ["value " ++ shown value] ++ own ++ places

/-- A symbol's level, shown the way the user gave it where the symbol takes it from the user. -/
def shownLevel (m : Model) (u : UserValues) (s : SymbolId) (isYes isVisible : Bool) : UserValue :=
  match u.value s with
  | some (.level false isTruth) =>
    .level isYes (isTruth && !isYes && isVisible && (m.symbol s).choice.isNone)
  | _ => .level isYes false

/-- A choice, described. -/
def describeChoice (m : Model) (u : UserValues) (c : ChoiceId) : Plan String := do
  let choice := m.choice c
  let name := choice.name.getD ""
  let mode ← level (.choice c)
  let selected ← selection c
  let isVisible ← visible (.choice c)
  let nameOf := fun s => (m.symbol s).name
  let byUser := match u.selection c with
    | some s =>
      [nameOf s ++ " selected by user" ++ if selected = some s then "" else " (overridden)"]
    | none => []
  return describe <| [if name.isEmpty then "choice" else "choice " ++ name, choice.type.word] ++
    m.promptTexts (.choice c) ++ ["mode " ++ levelWord mode] ++
    ((u.mode c).map fun v => "user mode " ++ v.asText).toList ++
    (selected.map fun s => nameOf s ++ " selected").toList ++ byUser ++
    ["visibility " ++ levelWord isVisible] ++ choice.nodes.map m.place

/-- What a node is for. -/
def nodeWord (m : Model) (entry : Entry) : String :=
  match entry with
  | .symbol s => "menu node for symbol " ++ (m.symbol s).name
  | .choice c =>
    "menu node for choice" ++ match (m.choice c).name with
      | some name => " " ++ name
      | none => ""
  | .menu => "menu node for menu"
  | .comment | .block => "menu node for comment"

/-- A menu node, described. -/
def describeNode (m : Model) (links : Links) (n : NodeId) : Plan String := do
  let node := m.node n
  let prompt ← match node.prompt with
    | some p => do
      let isShown ← m.holds p.cond
      pure [s!"prompt {inQuotes p.text} (visibility {levelWord isShown})"]
    | none => pure []
  let isMet ← m.holds node.dep
  let visible ← match node.entry with
    | .menu => do
      let isMet ← m.holds node.visibleIf
      pure ["'visible if' deps " ++ levelWord isMet]
    | _ => pure []
  let isSymbol := match node.entry with
    | .symbol _ => true
    | _ => false
  return describe <| [m.nodeWord node.entry] ++ prompt ++
    (if isSymbol && node.isMenuconfig then ["is menuconfig"] else []) ++
    ["deps " ++ levelWord isMet] ++ visible ++
    (if node.entry.item?.isSome && node.help.isSome then ["has help"] else []) ++
    (if links.first.isSome then ["has child"] else []) ++
    (if links.next.isSome then ["has next"] else []) ++ [m.place n]

end Model

/-- The prompt of the top menu. -/
def Model.title (m : Model) : String := (m.node 0).title

/-- A configuration, described. -/
def Configuration.description (c : Configuration) : String :=
  let settings := c.settings
  describe [
    s!"configuration with {(c.model.knownSymbols false).length} symbols",
    "main menu prompt " ++ inQuotes c.model.title,
    if settings.srctree.isEmpty then "srctree is current directory"
    else "srctree " ++ inQuotes settings.srctree,
    "config symbol prefix " ++ inQuotes settings.configPrefix,
    s!"parser version {settings.version}",
    "warnings " ++ switchWord c.journal.warns,
    "printing of warnings to stderr " ++ switchWord c.journal.showsWarnings,
    "undef. symbol assignment warnings " ++ switchWord c.warnsUndefined,
    "overriding symbol assignment warnings " ++ switchWord c.warnsOverride,
    "redundant symbol assignment warnings " ++ switchWord c.warnsRedundant]

end Kconfig
