import Kconfig.Reading.Help
import Kconfig.Reading.Statement
/-!
Entries and their properties.

A new entry gets a menu node; the lines after it add properties to the node, or change the type of
its symbol or choice. Menus and comments share the node's properties but have no name and no type,
so a property that needs either is misplaced there.
-/
namespace Kconfig.Reading

/-- A node's symbol or choice, for a property that needs one. -/
def itemOf (n : NodeId) : Reading Item := do
  match ((← get).model.node n).entry.item? with
  | some i => pure i
  | none => throw .misplaced

/-- Warns about the symbol or choice of a node. -/
def warnOwner (n : NodeId) (warning : String → Warning) : Reading Unit := do
  let i ← itemOf n
  warn (warning ((← get).model.owner i))

def modifyNode (n : NodeId) (f : MenuNode → MenuNode) : Reading Unit :=
  modifyModel fun m => m.setNode n f

/-- A new menu node at the line that is read. -/
def addNode (entry : Entry) (isMenuconfig : Bool) (prompt : Option Prompt) : Reading NodeId := do
  let w ← get
  let n := w.model.nodes.size
  let file := w.place.spot.file.getD ""
  let line := w.place.spot.line
  let node : MenuNode := { entry, isMenuconfig, prompt, file, line, includes := w.place.includes }
  modifyModel fun m => { m with nodes := m.nodes.push node }
  pure n

/-- The name of an item where one is shown even if there is none. -/
def shownName (m : Model) : Item → String
  | .symbol s => (m.symbol s).name
  | .choice c => (m.choice c).name.getD (Json.display .null)

/-- Gives an item its type; another type than before is worth a warning. -/
def setType (n : NodeId) (t : ValueType) : Reading Unit := do
  let i ← itemOf n
  let before := (← get).model.itemType i
  if before ≠ .unknown ∧ before ≠ t then
    warnOwner n (.retyped · t.word)
  modifyModel fun m =>
    match i with
    | .symbol s => m.setSymbol s ({ · with type := t })
    | .choice c => m.setChoice c ({ · with type := t })

/-- Gives a node its prompt; one that it has is replaced. -/
def setPrompt (n : NodeId) (part : PromptPart) : Reading Unit := do
  if ((← get).model.node n).prompt.isSome then warnOwner n .repeatedPrompt
  let text ← part.text
  if Text.trimmed text ≠ text then warnOwner n .promptBlanks
  let cond ← part.cond
  modifyNode n ({ · with prompt := some ⟨Text.trimmed text, cond⟩ })

/-- Ties an item to an environment variable, whose value becomes a default. -/
def setEnvVar (n : NodeId) (name : String) : Reading Unit := do
  let i ← itemOf n
  let m := (← get).model
  if let .symbol s := i then modifyModel fun m => m.setSymbol s ({ · with envVar := some name })
  match (← get).host.lookup? name with
  | some value =>
    let s ← constant value
    modifyNode n fun node => { node with defaults := node.defaults ++ [⟨.symbol s, .yes⟩] }
  | none => warnHere (.unsetVariable (shownName m i) name)
  let ownName := match i with
    | .symbol s => some (m.symbol s).name
    | .choice c => (m.choice c).name
  if ownName ≠ some name then warnHere (.renamedVariable (shownName m i) name)

/-- Makes an entry the one whose defaults name default configurations; the first one stays. -/
def setDefconfigList (n : NodeId) : Reading Unit := do
  let m := (← get).model
  let entry := (m.node n).entry
  match m.defconfigList with
  | none => modifyModel ({ · with defconfigList := some entry })
  | some first =>
    match first.item?, entry.item? with
    | some a, some b => warnHere (.repeatedDefconfigList (shownName m a) (shownName m b))
    | _, _ => throw .misplaced

/-- Fails unless the node is a symbol's. -/
def needSymbol (n : NodeId) (p : Problem) : Reading Unit := do
  match ((← get).model.node n).entry with
  | .symbol _ => pure ()
  | _ => problem p

/-- Adds a property to a node. Help texts and statements that are no properties add nothing. -/
def addProperty (n : NodeId) : Statement → Reading Unit
  | .type t prompt => do
    setType n t
    if let some part := prompt then setPrompt n part
  | .prompt part => setPrompt n part
  | .depends cond => do
    let cond ← cond
    modifyNode n fun node => { node with dep := node.dep.conj cond }
  | .visible cond => do
    let cond ← cond
    modifyNode n fun node => { node with visibleIf := node.visibleIf.conj cond }
  | .select target cond => do
    needSymbol n .selectOutsideSymbol
    let value ← target
    let cond ← cond
    modifyNode n fun node => { node with selects := node.selects ++ [⟨value, cond⟩] }
  | .imply target cond => do
    needSymbol n .implyOutsideSymbol
    let value ← target
    let cond ← cond
    modifyNode n fun node => { node with implies := node.implies ++ [⟨value, cond⟩] }
  | .default value cond => do
    let value ← value
    let cond ← cond
    modifyNode n fun node => { node with defaults := node.defaults ++ [⟨value, cond⟩] }
  | .range bounds cond => do
    let value ← bounds
    let cond ← cond
    modifyNode n fun node => { node with ranges := node.ranges ++ [⟨value, cond⟩] }
  | .option part => do
    match ← part with
    | .env name => setEnvVar n name
    | .defconfigList => setDefconfigList n
    | .allnoconfigY =>
      needSymbol n .allnoconfigOutsideSymbol
      if let .symbol s := ((← get).model.node n).entry then
        modifyModel fun m => m.setSymbol s ({ · with isAllnoconfigY := true })
  | .optional => do
    match ((← get).model.node n).entry with
    | .choice _ => pure ()
    | _ => problem .optionalOutsideChoice
  | _ => pure ()

end Kconfig.Reading
