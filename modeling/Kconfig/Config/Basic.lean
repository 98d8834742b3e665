import Kconfig.Reading.Workspace
import Kconfig.Values.Memory
/-!
A configuration: a model with what the user gave and what is remembered.

`Configuring` is the kind of action on a configuration; when an action fails, what it did before
stays done. Values are asked for with `ask`, and plans over values are followed with `follow`.
-/
namespace Kconfig

/-- The symbols and choices that were assigned since the flags were last cleared. -/
structure Assigned where
  symbols : Array Bool := #[]
  choices : Array Bool := #[]
  deriving Inhabited

structure Configuration extends Workspace where
  dependents : Dependents := {}
  user : UserValues := {}
  memory : Memory := {}
  assigned : Assigned := {}
  /-- Assignments to undefined symbols in the files loaded last. -/
  missing : List (String × String) := []
  warnsUndefined : Bool := false
  warnsOverride : Bool := true
  warnsRedundant : Bool := true
  warnsPromptless : Bool := true
  deriving Inhabited

abbrev Configuring := EStateM Failure Configuration

namespace Configuration

/-- The configuration of a settled model before the user gives anything. -/
def ofWorkspace (w : Workspace) : Configuration :=
  let m := w.model
  let symbols := m.symbols.size
  let choices := m.choices.size
  { w with
    dependents := m.addMembers m.readers
    user := ⟨.replicate symbols none, .replicate choices none, .replicate choices none⟩
    memory := .empty m
    assigned := ⟨.replicate symbols false, .replicate choices false⟩
    warnsUndefined := w.host.lookup? "KCONFIG_WARN_UNDEF_ASSIGN" = some "y" }

end Configuration

namespace Configuring

/-- Performs an action of reading. -/
def reading {α : Type} (action : Reading α) : Configuring α := do
  let c ← get
  match action.run c.toWorkspace with
  | .ok a w =>
    set { c with toWorkspace := w }
    pure a
  | .error e w =>
    set { c with toWorkspace := w }
    throw e

/-- Follows a plan over values. -/
def follow {α : Type} (p : Plan α) : Configuring α := do
  let c ← get
  match (Evaluating.follow c.model c.user p).run ⟨c.memory, c.journal⟩ with
  | .ok a e =>
    set { c with memory := e.memory, journal := e.journal }
    pure a
  | .error f e =>
    set { c with memory := e.memory, journal := e.journal }
    throw f

/-- The answer to a question about a value. -/
def ask (q : Query) : Configuring q.Answer := follow (.ask q .done)

def text (i : Item) : Configuring String := follow (.text i)
def level (i : Item) : Configuring Bool := follow (.level i)
def visible (i : Item) : Configuring Bool := follow (.visible i)

/-- Whether an expression holds. -/
def holds (e : Expr) : Configuring Bool := do follow ((← get).model.holds e)

/-- Warns without a place. -/
def warn (w : Warning) : Configuring Unit :=
  modify fun c => { c with journal := c.journal.warn none w }

/-- Warns about a line of a file. -/
def warnAt (file : String) (line : Nat) (w : Warning) : Configuring Unit :=
  modify fun c => { c with journal := c.journal.warn (some (file, line)) w }

def print (text : String) : Configuring Unit :=
  modify fun c => { c with journal := c.journal.print text }

/-- Refuses a path that no file can have. -/
def checkPath (path : String) : Configuring Unit :=
  if Files.hasNull path then throw .badVariable else pure ()

/-- An action on the files; when it fails, the path tells where. -/
def onFiles {α : Type} (path : String)
    (action : Files.Store → Except Files.Condition (α × Files.Store)) : Configuring α := do
  let c ← get
  match action c.host.files with
  | .error condition => throw (.file condition path)
  | .ok (a, files) =>
    set { c with host.files := files }
    pure a

/-- Writes a text file. -/
def writeFile (path text : String) : Configuring Unit :=
  onFiles path fun files => do pure ((), ← files.write path (.text text))

end Configuring
end Kconfig
