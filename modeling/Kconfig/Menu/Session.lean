import Kconfig.Config.Save
import Kconfig.Load.Model
import Kconfig.Menu.Item
/-!
An editing session: a configuration, the menu shown of it, and the file it belongs to.

Items are changed by the numbers under which a menu showed them. The session knows whether the
configuration has changes that its file does not hold. A file that cannot be loaded leaves the
values as they are.
-/
namespace Kconfig

/-- The file of a session. -/
inductive ConfigTarget where
  | standard
  | path (name : String)
  /-- Something that is no file name. -/
  | other (value : Json)
  deriving Inhabited

/-- A file as it is handed in; null is for the standard one. -/
def ConfigTarget.ofJson : Json → ConfigTarget
  | .null => .standard
  | .str s => .path s
  | v => .other v

/-- Whether a value counts as given: not null, false, zero or empty. -/
def Json.isFilled : Json → Bool
  | .null => false
  | .bool b => b
  | .int n => n ≠ 0
  | .float x => x.isFilled
  | .str s => !s.isEmpty
  | .arr items => !items.isEmpty
  | .obj fields => !fields.isEmpty

/-- The number of an open file, if a value is one; truth values are numbers. -/
def Json.fileNumber? : Json → Option Int
  | .bool b => some (if b then 1 else 0)
  | .int n => if -0x80000000 ≤ n ∧ n < 0x80000000 then some n else none
  | _ => none

/-- Whether a value is the number of a standard stream. These are the only files that are open. -/
def Json.isStream (v : Json) : Bool := v.fileNumber?.any fun n => 0 ≤ n && n ≤ 2

/-- Why a value that is no file name cannot be opened. What comes of a standard stream that is read
or written instead is not modelled; a session stops there. -/
def Json.openFailure (v : Json) : Failure :=
  if v.fileNumber?.any (· < 0) then .badVariable else .illTyped

/-- The name under which the configuration is loaded. -/
def ConfigTarget.toLoad : ConfigTarget → Except Failure (Option String)
  | .standard => .ok none
  | .path name => .ok (some name)
  | .other v => .error v.openFailure

/-- The name under which the configuration is saved. -/
def ConfigTarget.toSave : ConfigTarget → Except Failure (Option String)
  | .standard => .ok none
  | .path name => .ok (if name.isEmpty then none else some name)
  | .other v => if v.isFilled then .error v.openFailure else .ok none

structure Session extends Configuration where
  target : ConfigTarget := .standard
  showsAll : Bool := false
  /-- The nodes that a menu has shown. -/
  handed : List NodeId := []
  hasChanged : Bool := false
  deriving Inhabited

namespace Session

abbrev Act := EStateM Failure Session

/-- The session of a fresh model. -/
def open? (host : Host) (name : String) (target : ConfigTarget) (showsAll : Bool)
    (version : Option Int) : EStateM.Result Failure Workspace Session :=
  let options : LoadOptions :=
    { name, warns := true, informs := false, showsWarnings := false, version }
  match Load.load host options with
  | .ok c w => .ok { c with target, showsAll } w
  | .error failure w => .error failure w

/-- Performs an action on the configuration. -/
def task {α : Type} (action : Configuring α) : Act α := do
  let s ← get
  match action.run s.toConfiguration with
  | .ok a c =>
    set { s with toConfiguration := c }
    pure a
  | .error e c =>
    set { s with toConfiguration := c }
    throw e

/-- The menu as it is now. -/
def menu : Act (List MenuItem) := do
  let s ← get
  let rows ← task (Configuring.follow (s.model.rows s.showsAll))
  modify fun s => { s with handed := s.handed ++ rows.map fun r => r.2.node }
  return MenuItem.ofRows rows

/-- Whether a symbol's value is other than the file would give it. -/
def isUnsaved (s : SymbolId) : Configuring Bool := do
  let c ← get
  match c.user.value s with
  | none => return (← Configuring.ask (.text (.symbol s))).isWritten
  | some v =>
    if (c.model.symbol s).type = .bool then return (← Configuring.level (.symbol s)) ≠ v.isYes
    return (← Configuring.text (.symbol s)) ≠ v.asText

/-- Whether some symbol's value is unsaved; the first one decides. -/
def anyUnsaved : List SymbolId → Configuring Bool
  | [] => return false
  | s :: more => do
    if ← isUnsaved s then return true else anyUnsaved more

/-- Whether writing the configuration would change the file that was loaded. -/
def differs : Configuring Bool := do
  let c ← get
  if !c.missing.isEmpty then return true
  anyUnsaved c.model.defined

/-- What was read off the session, unless it fails. -/
def orFail {α : Type} : Except Failure α → Act α
  | .ok a => pure a
  | .error e => throw e

/-- Loads the file, or gives the words of the failure. -/
def tryLoad : Act (Except String String) := do
  try
    let name ← orFail (← get).target.toLoad
    return .ok (← task (Configuring.loadConfig name true))
  catch e =>
    match e.message? with
    | some message => return .error message
    | none => throw e

/-- Loads the file, and tells what happened. -/
def loadConfig : Act String := do
  match ← tryLoad with
  | .ok message =>
    let hasChanged ← task differs
    modify ({ · with hasChanged })
    return message
  | .error message =>
    modify ({ · with hasChanged := false })
    return s!"No configuration loaded: {Text.trimmed message}"

/-- Saves the configuration, and tells what happened. -/
def saveConfig : Act String := do
  let name ← orFail (← get).target.toSave
  let message ← task (Configuring.saveConfig name none true)
  modify ({ · with hasChanged := false })
  return message

/-- Whether values of a type are entered as text. -/
def isTextType : ValueType → Bool
  | .string | .int | .hex => true
  | _ => false

/-- Whether the user can change a node's value. -/
def isChangeable (n : NodeId) : Configuring (Option Item) := do
  let m := (← get).model
  let node := m.node n
  match node.entry.item?, node.prompt with
  | some i, some p =>
    if !(← Configuring.holds p.cond) then return none
    if isTextType (m.itemType i) then return some i
    if (← Configuring.ask (.assignable i)).length > 1 then return some i
    match i with
    | .symbol s =>
      if (m.symbol s).choice.isSome then
        return if ← Configuring.visible i then some i else none
      return none
    | .choice _ => return none
  | _, _ => return none

/-- Gives an item a value. -/
def setItem (i : Item) (g : Given) : Configuring Bool :=
  match i with
  | .symbol s => Configuring.setSymbol s g
  | .choice c => Configuring.setChoice c g

/-- The level after the present one among those that can be given. -/
def nextLevel (levels : List Bool) (level : Bool) : Bool :=
  match levels.dropWhile (· ≠ level) with
  | _ :: next :: _ => next
  | _ => levels.headD true

/-- Gives an item a value from outside: texts as they are, levels by truth values or words, and
anything else steps to the next level. -/
def changeItem (i : Item) (value : Json) : Configuring Bool := do
  let m := (← get).model
  let value := match value with
    | .bool b => Json.str (levelWord b)
    | v => v
  if isTextType (m.itemType i) then setItem i (.text value.asText)
  else
    match value with
    | .str "y" => setItem i (.text "y")
    | .str "n" => setItem i (.text "n")
    | _ =>
      let levels ← Configuring.ask (.assignable i)
      let level ← if levels.length = 1 then pure false else Configuring.level i
      setItem i (.number (if nextLevel levels level then 2 else 0))

/-- Changes the value of the item of a number; tells whether it was accepted. -/
def change (id : Int) (value : Json) : Act Bool := do
  let n := id.toNat
  if id < 0 || !(← get).handed.contains n then return false
  match ← task (isChangeable n) with
  | none => return false
  | some i =>
    let isAccepted ← task (changeItem i value)
    if isAccepted then modify ({ · with hasChanged := true })
    return isAccepted

end Session
end Kconfig
