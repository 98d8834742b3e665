import Kconfig.Config.Basic
/-!
Giving symbols and choices values, and taking them away.

A value of the wrong form is refused with a warning. An accepted value makes everything that may
depend on it forgotten. Making a member of a choice `y` makes it the user's selection of the choice.
Assigning what is already assigned changes nothing, but counts as an assignment.
-/
namespace Kconfig

/-- A value as it is handed in. -/
inductive Given where
  | text (s : String)
  | number (n : Int)
  | truth (b : Bool)
  | nothing
  deriving DecidableEq, Repr

namespace Given

/-- The level that a value stands for. -/
def level? : Given → Option UserValue
  | .number n =>
    if n = 0 then some (.level false false)
    else if n = 2 then some (.level true false)
    else none
  | .truth false => some (.level false true)
  | _ => none

/-- The value with the words `n` and `y` read as levels. -/
def readLevel : Given → Given
  | .text "n" => .number 0
  | .text "y" => .number 2
  | g => g

/-- A value as warnings show it. -/
def shown (g : Given) : String :=
  match g.level? with
  | some l => l.asText
  | none =>
    "'" ++ (match g with
      | .text s => s
      | .number n => Text.decimal n
      | .truth b => Json.asText (.bool b)
      | .nothing => Json.asText .null) ++ "'"

/-- Whether a value is what the user gave before. -/
def same (g : Given) : Option UserValue → Bool
  | none => g == .nothing
  | some (.text s) => g == .text s
  | some (.level l _) => (g.level?.map (·.isYes)) == some l

end Given

/-- The value that a symbol of a type takes on, if the given one has the right form. -/
def ValueType.accept? (type : ValueType) (g : Given) : Option UserValue :=
  match type, g with
  | .bool, g => g.level?
  | .string, .text s => some (.text s)
  | .int, .text s => if Text.isNumeral .ten s then some (.text s) else none
  | .hex, .text s =>
    match Text.readInt .sixteen s.toList with
    | some n => if 0 ≤ n then some (.text s) else none
    | none => none
  | _, _ => none

namespace Configuring

/-- Forgets the answers that an item's new value may change. -/
def forgetFrom (i : Item) : Configuring Unit :=
  modify fun c => { c with memory := c.memory.forgetFrom c.dependents i }

/-- Forgets what a symbol's new value may change; without a prompt it can change nothing. -/
def forgetPrompted (s : SymbolId) : Configuring Unit := do
  let c ← get
  if (c.model.symbol s).nodes.any fun n => (c.model.node n).prompt.isSome then
    forgetFrom (.symbol s)
  else if c.warnsPromptless then warn (.noPrompt (c.model.owner (.symbol s)))

def markSymbol (s : SymbolId) (isAssigned : Bool) : Configuring Unit :=
  modify fun c =>
    { c with assigned.symbols := c.assigned.symbols.setIfInBounds s isAssigned }

def markChoice (ch : ChoiceId) (isAssigned : Bool) : Configuring Unit :=
  modify fun c =>
    { c with assigned.choices := c.assigned.choices.setIfInBounds ch isAssigned }

def setUserValue (s : SymbolId) (v : Option UserValue) : Configuring Unit :=
  modify fun c => { c with user.values := c.user.values.setIfInBounds s v }

def setUserMode (ch : ChoiceId) (v : Option UserValue) : Configuring Unit :=
  modify fun c => { c with user.modes := c.user.modes.setIfInBounds ch v }

def setUserSelection (ch : ChoiceId) (s : Option SymbolId) : Configuring Unit :=
  modify fun c => { c with user.selections := c.user.selections.setIfInBounds ch s }

/-- Refuses a value. -/
def refuse (i : Item) (g : Given) : Configuring Bool := do
  let m := (← get).model
  warn (.invalidValue g.shown (m.owner i) (m.itemType i).word)
  return false

/-- Gives a symbol a value; tells whether it was accepted. -/
def setSymbol (s : SymbolId) (g : Given) : Configuring Bool := do
  let c ← get
  let sym := c.model.symbol s
  let g := if sym.type = .bool then g.readLevel else g
  if g.same (c.user.value s) && sym.choice.isNone then
    markSymbol s true
    return true
  match sym.type.accept? g with
  | none => refuse (.symbol s) g
  | some v =>
    setUserValue s (some v)
    markSymbol s true
    match sym.choice, v.isYes with
    | some ch, true =>
      setUserSelection ch (some s)
      markChoice ch true
      forgetFrom (.choice ch)
    | _, _ => forgetPrompted s
    return true

/-- Takes the user's value of a symbol away. -/
def unsetSymbol (s : SymbolId) : Configuring Unit := do
  if ((← get).user.value s).isSome then
    setUserValue s none
    forgetPrompted s

/-- Gives a choice a mode; tells whether it was accepted. -/
def setChoice (ch : ChoiceId) (g : Given) : Configuring Bool := do
  let c ← get
  let g := g.readLevel
  if g.same (c.user.mode ch) then
    markChoice ch true
    return true
  match (c.model.choice ch).type, g.level? with
  | .bool, some v =>
    setUserMode ch (some v)
    markChoice ch true
    forgetFrom (.choice ch)
    return true
  | _, _ => refuse (.choice ch) g

/-- Takes the user's mode and selection of a choice away. -/
def unsetChoice (ch : ChoiceId) : Configuring Unit := do
  let c ← get
  if (c.user.mode ch).isSome || (c.user.selection ch).isSome then
    setUserMode ch none
    setUserSelection ch none
    forgetFrom (.choice ch)

end Configuring
end Kconfig
