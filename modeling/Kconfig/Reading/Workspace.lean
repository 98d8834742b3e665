import Kconfig.Failure
import Kconfig.Journal
import Kconfig.Model.Basic
import Kconfig.Reading.Infix
import Kconfig.Shell.Run
import Kconfig.Text.Reference
/-!
What is at hand while Kconfig files are read.

A `Workspace` holds the host (environment and files), the journal, the macro variables, the place
in the files, and the model as far as it is read. `Reading` is the kind of action that works on
it; when an action fails, what it did before stays done.
-/
namespace Kconfig

/-- The world outside: environment variables, files, the shell that runs commands, the release of the
kernel, and the library that takes expressions from lines of the second notation. -/
structure Host where
  env : List (String × String) := []
  files : Files.Store := {}
  shell : Shell := .small
  release : String := ""
  expression : Infix := Grammar.ofLevels
  deriving Inhabited

/-- The value of an environment variable. -/
def Host.lookup? (host : Host) (name : String) : Option String := host.env.lookup name

/-- The host with an environment variable set. -/
def Host.setVariable (host : Host) (name value : String) : Host :=
  { host with env := (name, value) :: host.env.filter (·.1 ≠ name) }

/-- The home directory, never the empty path. -/
def Host.home (host : Host) : String :=
  let home := String.ofList (Text.dropRightWhile (· == '/') ((host.lookup? "HOME").getD "").toList)
  if home.isEmpty then "/" else home

/-- A macro variable. A recursive one keeps its text and expands it at every use. -/
structure Variable where
  name : String
  value : String := ""
  isRecursive : Bool := false
  /-- How many expansions of it have begun and not ended. -/
  active : Nat := 0
  deriving Repr, Inhabited

/-- Where reading stands: the line, and the lines that included its file. -/
structure Place where
  spot : Spot
  includes : List (String × Nat) := []
  deriving Repr, Inhabited

/-- What the environment decides once, when a model is loaded. -/
structure Settings where
  version : Int := 1
  srctree : String := ""
  configPrefix : String := "CONFIG_"
  configHeader : String := ""
  headerHeader : String := ""
  verbosity : String := "default"
  deriving Repr, Inhabited

structure Workspace where
  host : Host := {}
  journal : Journal := {}
  settings : Settings := {}
  macros : Array Variable := #[]
  usedEnv : List String := []
  place : Place := default
  files : List String := []
  model : Model := .empty
  isOpen : Bool := true
  allowedSymbols : List String := []
  allowedChoices : List String := []
  deriving Inhabited

abbrev Reading := EStateM Failure Workspace

namespace Reading

def fatal {α : Type} (error : Fatal) : Reading α := throw (.fatal error)

/-- Fails at the line that is read. -/
def problem {α : Type} (p : Problem) : Reading α := do fatal (.badLine (← get).place.spot p)

/-- Warns without a place. -/
def warn (warning : Warning) : Reading Unit :=
  modify fun w => { w with journal := w.journal.warn none warning }

/-- Warns at the line that is read; there is no place without a file. -/
def warnHere (warning : Warning) : Reading Unit :=
  modify fun w =>
    let spot := w.place.spot
    { w with journal := w.journal.warn (spot.file.map (·, spot.line)) warning }

def modifyModel (f : Model → Model) : Reading Unit := modify fun w => { w with model := f w.model }

/-- The value of an environment variable, which is noted as used. -/
def useVariable? (name : String) : Reading (Option String) := do
  match (← get).host.lookup? name with
  | some value =>
    modify fun w =>
      if w.usedEnv.contains name then w else { w with usedEnv := w.usedEnv ++ [name] }
    pure (some value)
  | none => pure none

/-- The number of a new symbol; it can be found by its name only while files are read. -/
def addSymbol (name : String) (isConstant : Bool) : Reading SymbolId := do
  let w ← get
  let s := w.model.symbols.size
  modifyModel fun m =>
    { m with
      symbols := m.symbols.push { name, isConstant }
      known := if w.isOpen then m.known + 1 else m.known }
  pure s

/-- The symbol of a name. -/
def symbol (name : String) : Reading SymbolId := do
  let w ← get
  match w.model.find? name false with
  | some s => pure s
  | none =>
    unless w.isOpen do warn (.unknownSymbol name)
    addSymbol name false

/-- The constant symbol of a text. -/
def constant (text : String) : Reading SymbolId := do
  match (← get).model.find? text true with
  | some s => pure s
  | none => addSymbol text true

/-- The symbol that a bare word stands for; `n` and `y` are constants. -/
def word (name : String) : Reading SymbolId :=
  if name = "n" then pure noId else if name = "y" then pure yesId else symbol name

/-- A text with its environment references replaced, and the two names that stand for the release of
the kernel and for the home directory. -/
def expandEnv (text : List Char) : Reading (List Char) := do
  let host := (← get).host
  let released := Text.replaceAll "$UNAME_RELEASE".toList host.release.toList text
  let housed := Text.replaceAll "${userHome}".toList host.home.toList released
  pure (Text.expandReferences host.lookup? housed)

end Reading
end Kconfig
