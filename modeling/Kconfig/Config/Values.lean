import Kconfig.Config.Basic
import Kconfig.Config.Contents
/-!
The values of a configuration.

A value can be the default one although the user gave it. As JSON the values are truth values,
numbers and texts by name.
-/
namespace Kconfig.Configuring

/-- Whether the user gave a symbol no value, or its text is the default one all the same. -/
def isDefault (s : SymbolId) : Configuring Bool := do
  let c ← get
  if (c.user.value s).isNone then return true
  let now ← text (.symbol s)
  let default ← follow (c.model.defaultText s)
  return now == default

/-- The value of a symbol as JSON. A number without a value is null, and told. -/
def jsonValue (sym : Symbol) (value : String) : Configuring Json := do
  if value.isEmpty && sym.type.isNumber then
    let note := s!"warning: {sym.name} has no value set in the configuration.\n"
    modify fun c => { c with journal := c.journal.printError note }
    return .null
  match sym.type with
  | .bool => return .bool (value ≠ "n")
  | .int | .hex =>
    match Text.readInt sym.type.radix value.toList with
    | some n => return .int n
    | none => throw .notANumber
  | _ => return .str value

/-- The values with that of a node's symbol, if configurations hold it. -/
def addValue (fields : List (String × Json)) (n : NodeId) : Configuring (List (String × Json)) := do
  let m := (← get).model
  match (m.node n).entry with
  | .symbol s =>
    let sym := m.symbol s
    let answer ← ask (.text (.symbol s))
    if answer.isWritten then
      return Json.setField sym.name (← jsonValue sym answer.value) fields
    return fields
  | _ => return fields

/-- The values that configurations hold, in the order of the menu tree. -/
def jsonValues : Configuring Json := do
  match (← get).model.nodeIter false with
  | none => throw .endless
  | some ns => return .obj (← ns.foldlM addValue [])

end Kconfig.Configuring
