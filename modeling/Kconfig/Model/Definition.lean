import Kconfig.Model.Inheritance
/-!
Definitions written in Kconfig notation.

A node is written with the dependency of its surroundings among its own, and its properties without
it. How symbols and choices are written inside expressions is up to the caller.
-/
namespace Kconfig
namespace Model

/-- A line of an entry with a condition, unless that is `y`. -/
def conditioned (name : Item → String) (line : String) (cond : Expr) : String :=
  if cond = .yes then line else line ++ " if " ++ cond.render name

/-- The lines of a menu or comment. -/
def menuLines (name : Item → String) (node : MenuNode) : List String :=
  let word := if node.entry = .menu then "menu" else "comment"
  [word ++ " \"" ++ node.title ++ "\""] ++
    (if node.dep = .yes then [] else ["\tdepends on " ++ node.dep.render name]) ++
    if node.entry = .menu ∧ node.visibleIf ≠ .yes then
      ["\tvisible if " ++ node.visibleIf.render name]
    else []

/-- The line of a symbol's or choice's type and prompt. -/
def promptLines (name : Item → String) (type : ValueType) (node : MenuNode) : List String :=
  match node.ownPrompt with
  | some p =>
    let word := if type = .unknown then "prompt" else type.word
    [conditioned name (word ++ " \"" ++ Text.escaped p.text ++ "\"") p.cond]
  | none => if type = .unknown then [] else [type.word]

/-- The lines of properties that take a word and a value. -/
def propertyLines {α : Type} (name : Item → String) (word : String) (write : α → String)
    (properties : List (Guarded α)) : List String :=
  properties.map fun p => conditioned name (word ++ " " ++ write p.value) p.cond

/-- The lines of a help text. -/
def helpLines : Option String → List String
  | none => []
  | some help => "help" :: (Text.linesOf help).map ("  " ++ ·)

/-- The lines after the first of an entry for a symbol or choice. -/
def bodyLines (m : Model) (name : Item → String) (i : Item) (node : MenuNode) : List String :=
  let forced := fun s => name (.symbol s)
  promptLines name (m.itemType i) node ++
    (match i with
      | .symbol s =>
        let sym := m.symbol s
        (if sym.isAllnoconfigY then ["option allnoconfig_y"] else []) ++
          (if m.defconfigList = some (.symbol s) then ["option defconfig_list"] else []) ++
          (match sym.envVar with
            | some var => ["option env=\"" ++ var ++ "\""]
            | none => []) ++
          propertyLines name "range" (fun b => forced b.low ++ " " ++ forced b.high)
            (node.own node.ranges)
      | .choice _ => []) ++
    propertyLines name "default" (Expr.render name) (node.own node.defaults) ++
    (match i with
      | .symbol _ =>
        propertyLines name "select" forced (node.own node.selects) ++
          propertyLines name "imply" forced (node.own node.implies)
      | .choice _ => []) ++
    (if node.dep = .yes then [] else ["depends on " ++ node.dep.render name]) ++
    helpLines node.help

/-- The first line of an entry for a symbol or choice. -/
def headLine (m : Model) (i : Item) (node : MenuNode) : String :=
  match i with
  | .symbol s => (if node.isMenuconfig then "menuconfig " else "config ") ++ (m.symbol s).name
  | .choice c =>
    match (m.choice c).name with
    | some name => if name.isEmpty then "choice" else "choice " ++ name
    | none => "choice"

/-- A node in Kconfig notation, with no line end after it. -/
def nodeText (m : Model) (name : Item → String) (n : NodeId) : String :=
  let node := m.node n
  let lines := match node.entry.item? with
    | some i => m.headLine i node :: (m.bodyLines name i node).map ("\t" ++ ·)
    | none => menuLines name node
  "\n".intercalate lines

/-- All definitions of a symbol or choice in Kconfig notation. -/
def itemDefinition (m : Model) (name : Item → String) (i : Item) : String :=
  "\n\n".intercalate ((m.itemNodes i).map (m.nodeText name))

/-- The items that a node mentions. -/
def mentioned (m : Model) (n : NodeId) : List Item :=
  let node := m.node n
  let forced := fun (ps : List (Guarded SymbolId)) =>
    ps.flatMap fun p => .symbol p.value :: p.cond.items
  firstOccurrences <|
    node.dep.items ++
      (match node.prompt with
        | some p => p.cond.items
        | none => []) ++
      (if node.entry = .menu then node.visibleIf.items else []) ++
      (node.defaults.flatMap fun p => p.value.items ++ p.cond.items) ++
      forced node.selects ++ forced node.implies ++
      node.ranges.flatMap fun p => .symbol p.value.low :: .symbol p.value.high :: p.cond.items

end Model
end Kconfig
