import Kconfig.Model.Definition
import Kconfig.Model.Links
import Kconfig.Reading.Workspace
import Kconfig.Text.Uppercase
/-!
Checks of a settled model.

What is merely odd is warned about: types that do not fit, defaults and ranges that are no numbers,
choices without a prompt, members that are forced. Defaults that cannot have a value are errors.
Names defined in several places are reported unless a remark allows it, and names that are never
defined when the environment asks for it.
-/
namespace Kconfig.Reading

/-- Whether a symbol can be a number of a type. -/
def fitsNumber (m : Model) (type : ValueType) (s : SymbolId) : Bool :=
  let sym := m.symbol s
  if sym.nodes.isEmpty then Text.isNumeral type.radix sym.name else sym.type = type

/-- Whether a symbol can be selected and implied. -/
def takesLevel (m : Model) (s : SymbolId) : Bool :=
  match (m.symbol s).type with
  | .bool | .unknown => true
  | _ => false

/-- Warns about forced symbols that take no level. -/
def checkTargets (m : Model) (owner verb : String) (targets : List (Guarded SymbolId)) :
    Reading Unit :=
  targets.forM fun p => do
    unless takesLevel m p.value do
      warn (.targetNotBool owner verb (m.symbol p.value).type.word (m.owner (.symbol p.value)))

/-- Checks a default of a symbol that has a text or a number. -/
def checkDefault (m : Model) (owner : String) (type : ValueType) (p : Guarded Expr) :
    Reading Unit := do
  match p.value with
  | .item (.symbol d) =>
    let sym := m.symbol d
    if type = .string then
      if !sym.isConstant && sym.nodes.isEmpty && !Text.isCapitals sym.name.toList then
        warn (.unquotedDefault owner)
    else unless fitsNumber m type d do
      warn (.defaultNotNumber type.word owner (m.owner (.symbol d)))
  | e => fatal (.badDefault type.word owner (m.exprText e))

/-- Checks the ranges of a symbol. -/
def checkRanges (m : Model) (owner : String) (sym : Symbol) : Reading Unit := do
  if sym.ranges.isEmpty then return
  if !sym.type.isNumber then warn (.rangesOnNonNumber sym.type.word owner)
  else
    for p in sym.ranges do
      unless fitsNumber m sym.type p.value.low && fitsNumber m sym.type p.value.high do
        warn (.rangeNotNumber sym.type.word owner (m.owner (.symbol p.value.low))
          (m.owner (.symbol p.value.high)))

def checkSymbol (m : Model) (s : SymbolId) : Reading Unit := do
  let sym := m.symbol s
  let owner := m.owner (.symbol s)
  match sym.type with
  | .bool =>
    checkTargets m owner "selects" sym.selects
    checkTargets m owner "implies" sym.implies
  | .unknown => warn (.untyped owner)
  | type =>
    sym.defaults.forM (checkDefault m owner type)
    unless sym.selects.isEmpty && sym.implies.isEmpty do
      warn (.selectsOnNonBool type.word owner)
  checkRanges m owner sym

/-- Warns about a member that other symbols force. -/
def checkForced (m : Model) (owner verb : String) (dep : Expr) : Reading Unit := do
  if dep = .no then return
  let selectors := dep.disjuncts.filterMap fun e =>
    (e.conjuncts.head?.bind fun e => e.items.head?).map m.owner
  warn (.memberForced owner verb selectors)

def checkMember (m : Model) (c : ChoiceId) (s : SymbolId) : Reading Unit := do
  let sym := m.symbol s
  let owner := m.owner (.symbol s)
  unless sym.defaults.isEmpty do warn (.defaultOnMember owner)
  checkForced m owner "selected" sym.revDep
  checkForced m owner "implied" sym.weakRevDep
  for n in sym.nodes do
    let node := m.node n
    let parent : Option Entry := (m.linksOf n).parent.map fun p => (m.node p).entry
    if parent = some (.choice c) then
      if node.prompt.isNone then warn (.memberWithoutPrompt owner)
    else if node.prompt.isSome then warn (.memberPromptOutside owner)

def checkChoice (m : Model) (c : ChoiceId) : Reading Unit := do
  let choice := m.choice c
  let owner := m.owner (.choice c)
  if choice.type ≠ .bool then warn (.choiceNotBool owner choice.type.word)
  unless choice.nodes.any fun n => (m.node n).prompt.isSome do warn (.choiceWithoutPrompt owner)
  for p in choice.defaults do
    match p.value with
    | .item (.symbol s) =>
      if (m.symbol s).choice ≠ some c then
        warn (.defaultOutsideChoice (m.owner (.symbol s)) owner)
    | e => fatal (.badChoiceDefault owner (m.exprText e))
  choice.members.forM (checkMember m c)

/-- The different places of nodes as reports show them. -/
def placesOf (w : Workspace) (nodes : List NodeId) : List String :=
  Model.firstOccurrences <| nodes.map fun n =>
    let node := w.model.node n
    s!"    {w.host.files.absolute node.file}:{node.line}"

/-- Reports a name that is defined in several places. -/
def reportRepeated (kind name shown : String) (places : List String) : Reading Unit := do
  let sorted := places.mergeSort (· ≤ ·)
  let message := s!"INFO: {kind} {name} defined in multiple locations (see below). " ++
    "Please check if this is a correct behavior or a random name match:\n" ++
    "\n".intercalate sorted
  modify fun w => { w with journal := (w.journal.addRepeated shown places).inform message }

/-- Reports symbols and choices that are defined in several places. -/
def checkRepeated (m : Model) : Reading Unit := do
  let w ← get
  for s in m.defined do
    let sym := m.symbol s
    let places := placesOf w sym.nodes
    if places.length > 1 && !w.allowedSymbols.contains sym.name then
      reportRepeated "Symbol" sym.name sym.name places
  for c in m.definedChoices do
    let choice := m.choice c
    let name := choice.name.getD ""
    let places := placesOf w choice.nodes
    if places.length > 1 && !w.allowedChoices.contains name then
      reportRepeated "Choice" name s!"<choice {name}>" places

/-- Whether a name is a number; hexadecimal ones need their `0x`. -/
def isNumberName (name : String) : Bool :=
  Text.isNumeral .ten name ||
    ("0x".isPrefixOf name || "0X".isPrefixOf name) && Text.isNumeral .sixteen name

/-- Warns about symbols that are mentioned and never defined. -/
def checkUndefined (m : Model) : Reading Unit := do
  for s in m.knownSymbols false do
    let sym := m.symbol s
    if sym.nodes.isEmpty && !isNumberName sym.name then
      let mentions := (m.order.filter fun n => (m.mentioned n).contains (.symbol s)).map fun n =>
        (⟨(m.node n).file, (m.node n).line, m.nodeText m.itemText n⟩ : Mention)
      warn (.undefinedSymbol sym.name mentions)

/-- Performs the checks on the model that was read. -/
def checkModel : Reading Unit := do
  let w ← get
  let m := w.model
  m.defined.forM (checkSymbol m)
  m.definedChoices.forM (checkChoice m)
  checkRepeated m
  if w.host.lookup? "KCONFIG_WARN_UNDEF" = some "y" ∨
      w.host.lookup? "KCONFIG_STRICT" = some "y" then
    checkUndefined m

end Kconfig.Reading
