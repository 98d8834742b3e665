import Kconfig.Config.Assign
import Kconfig.Config.Line
/-!
Loading configuration files.

Every assignment in a file is as if the user made it. A file that replaces the configuration also
takes away every user value that it does not assign. A file is looked for in the working directory
and then in the source tree; without a name it is the standard one or, if that is missing, the
default configuration that the model names.
-/
namespace Kconfig.Configuring

/-- The name of the configuration file when none is given. -/
def standardName (host : Host) : String := (host.lookup? "KCONFIG_CONFIG").getD ".config"

/-- A configuration file's name as it was found, and its content. -/
def openConfig (path : String) : Configuring (String × Files.Content) := do
  let c ← get
  match c.host.files.read path with
  | .ok content => return (path, content)
  | .error _ =>
    checkPath path
    let inTree := Files.join c.settings.srctree path
    match c.host.files.read inTree with
    | .ok content => return (inTree, content)
    | .error condition => throw (.configFile condition path c.settings.srctree)

/-- The first file that can be opened among defaults that hold. -/
def firstFile : List (Guarded Expr) → Configuring (Option String)
  | [] => return none
  | p :: more => do
    if ← holds p.cond then
      match p.value with
      | .item i =>
        let path ← text i
        let files := (← get).host.files
        let inTree := Files.join (← get).settings.srctree path
        if (files.read path).isOk then return some path
        else if (files.read inTree).isOk then return some inTree
        else
          checkPath path
          firstFile more
      | _ => throw .misplaced
    else firstFile more

/-- The default configuration that the model names. -/
def defconfigName : Configuring (Option String) := do
  let m := (← get).model
  match m.defconfigList with
  | none => return none
  | some (.symbol s) => firstFile (m.symbol s).defaults
  | some (.choice c) => firstFile (m.choice c).defaults
  | some _ => throw .misplaced

/-- Notes an assignment to a symbol that is not defined. -/
def assignUndefined (file : String) (line : Nat) (name value : String) : Configuring Unit := do
  modify fun c => { c with missing := c.missing ++ [(name, value)] }
  if (← get).warnsUndefined then warnAt file line (.assignsUndefined value name)

/-- Warns about a symbol that is assigned again. -/
def noteRepeated (file : String) (line : Nat) (s : SymbolId) (value : String) :
    Configuring Unit := do
  let c ← get
  let sym := c.model.symbol s
  let old ← match c.user.value s with
    | some v => pure v.asText
    | none => if sym.type = .bool then throw .unknownName else pure (Json.asText .null)
  let warning := Warning.setTwice (c.model.owner (.symbol s)) old value
  let isSame := (c.user.value s).isSome && old == value
  if if isSame then c.warnsRedundant else c.warnsOverride then warnAt file line warning

/-- Lets the mode of a choice follow a value that one of its members gets. -/
def followMode (file : String) (line : Nat) (ch : ChoiceId) (value : String) :
    Configuring Unit := do
  match (← get).user.mode ch with
  | some mode => if mode.asText ≠ value then warnAt file line .conflictingMembers
  | none => pure ()
  let _ ← setChoice ch (.text value)

/-- The text that an assignment gives a symbol, if it has the right form. -/
def assignedText? (file : String) (line : Nat) (s : SymbolId) (value : String) :
    Configuring (Option String) := do
  let m := (← get).model
  let sym := m.symbol s
  let owner := m.owner (.symbol s)
  match sym.type with
  | .bool =>
    let first := String.ofList (value.toList.take 1)
    if first ≠ "y" ∧ first ≠ "n" then
      warnAt file line (.badBoolValue value sym.type.word owner)
      return none
    match sym.choice with
    | some ch => if first ≠ "n" then followMode file line ch first
    | none => pure ()
    return some first
  | .string =>
    match Text.literal? value.toList with
    | some body => return some (String.ofList (Text.unescape body))
    | none =>
      warnAt file line (.badLiteral owner)
      return none
  | _ => return some value

/-- Gives a symbol the text of an assignment. -/
def assign (file : String) (line : Nat) (s : SymbolId) (value : String) : Configuring Unit := do
  if (← get).assigned.symbols[s]?.getD false then noteRepeated file line s value
  let _ ← setSymbol s (.text value)

/-- The defined symbol of a name. -/
def definedSymbol? (m : Model) (name : String) : Option SymbolId :=
  (m.find? name false).filter fun s => !(m.symbol s).nodes.isEmpty

/-- Takes a line of a configuration file. -/
def takeLine (file : String) (number : Nat) (line : List Char) : Configuring Unit := do
  let c ← get
  match ConfigLine.read c.settings.configPrefix line with
  | .assign name value =>
    match definedSymbol? c.model name with
    | none => assignUndefined file number name value
    | some s =>
      if let some value ← assignedText? file number s value then assign file number s value
  | .unset name =>
    match definedSymbol? c.model name with
    | none => assignUndefined file number name "n"
    | some s => if (c.model.symbol s).type = .bool then assign file number s "n"
  | .ignored => pure ()
  | .malformed => warnAt file number (.badLine (String.ofList (Text.trimRight line)))

/-- Takes lines from a number on. -/
def takeLines (file : String) (number : Nat) : List (List Char) → Configuring Unit
  | [] => pure ()
  | line :: more => do
    takeLine file number line
    takeLines file (number + 1) more

/-- Clears the flags of what was assigned. -/
def clearAssigned : Configuring Unit := do
  let m := (← get).model
  modify ({ · with missing := [] })
  m.defined.forM (markSymbol · false)
  m.definedChoices.forM (markChoice · false)

/-- Takes away the user values of what was not assigned. -/
def unsetOthers : Configuring Unit := do
  let c ← get
  for s in c.model.defined do
    unless c.assigned.symbols[s]?.getD false do unsetSymbol s
  for ch in c.model.definedChoices do
    unless c.assigned.choices[ch]?.getD false do unsetChoice ch

/-- Takes the assignments of a file. -/
def takeFile (path : String) (replaces : Bool) : Configuring Unit := do
  let (_, content) ← openConfig path
  if replaces then clearAssigned
  let decoded := content.decoded
  takeLines path 1 decoded.lines
  if let some fault := decoded.fault then throw (.fatal (.undecodableFile path fault))
  if replaces then unsetOthers

/-- An action in which user values without effect are not warned about. -/
def quietly {α : Type} (action : Configuring α) : Configuring α := do
  modify ({ · with warnsPromptless := false })
  try
    let a ← action
    modify ({ · with warnsPromptless := true })
    return a
  catch e =>
    modify ({ · with warnsPromptless := true })
    throw e

/-- The file to load, and how the message speaks of it. -/
def fileToLoad (name : Option String) : Configuring (Except String (String × String)) := do
  match name with
  | some name => return .ok (name, s!" configuration '{name}'")
  | none =>
    let c ← get
    let name := standardName c.host
    let files := c.host.files
    if files.exists? name || files.exists? (Files.join c.settings.srctree name) then
      return .ok (name, s!" configuration '{name}'")
    match ← defconfigName with
    | some path => return .ok (path, s!" default configuration '{path}' (no '{name}')")
    | none => return .error s!"Using default symbol values (no '{name}')"

/-- Loads a configuration file, and tells which. -/
def loadConfig (name : Option String) (replaces : Bool) : Configuring String := do
  match ← fileToLoad name with
  | .error message => return message
  | .ok (path, message) =>
    quietly (takeFile path replaces)
    return (if replaces then "Loaded" else "Merged") ++ message

end Kconfig.Configuring
