import Kconfig.Json.Parser
import Kconfig.Reading.Workspace
import Kconfig.Tool.Options
/-!
What the commands have in common: how a run ends, and the environment that its arguments set up.

A run leaves behind the files, what it printed on its two streams, and its ending.
`--env NAME=VALUE` sets a variable, and the object in the file of `--env-file` sets a variable for
each of its fields, after all of the former.
-/
namespace Kconfig.Tool

/-- How a run ends: with a status, with a complaint as its last words, or by a failure. -/
inductive Ending where
  | exit (status : Nat)
  | complaint (message : String)
  | failed (failure : Failure)
  deriving DecidableEq, Repr

structure Outcome where
  ending : Ending
  files : Files.Store
  output : String := ""
  errors : String := ""

/-- The outcome of a run that got as far as a journal. -/
def Outcome.of (ending : Ending) (files : Files.Store) (journal : Journal) : Outcome where
  ending := ending
  files := files
  output := journal.output
  errors := journal.errors

/-- A run that ends at once, before it changed anything. -/
structure Stop where
  ending : Ending
  output : String := ""
  errors : String := ""

def Stop.outcome (stop : Stop) (files : Files.Store) : Outcome where
  ending := stop.ending
  files := files
  output := stop.output
  errors := stop.errors

/-- The words of an error that ends a run. -/
def fatalText (message : String) : String := s!"A fatal error occurred: {message}\n"

/-- The outcome of a run whose model cannot be loaded, with its message put into words. -/
def Outcome.unloaded (words : String → String) (failure : Failure) (w : Workspace) : Outcome :=
  match failure.message? with
  | some message =>
    .of (.exit 2) w.host.files (w.journal.print (fatalText (words (Text.trimmed message))))
  | none => .of (.failed failure) w.host.files w.journal

/-- A run that ends with a failure. -/
def Stop.failed (failure : Failure) : Stop := { ending := .failed failure }

/-- Refuses arguments that a command does not take. -/
def orUsage {α : Type} (command : String) : Except UsageError α → Except Stop α
  | .ok a => .ok a
  | .error e => .error { ending := .exit 2, errors := s!"{command}: error: {e.message}\n" }

/-- Stops at a failure. -/
def orFailed {α : Type} : Except Failure α → Except Stop α
  | .ok a => .ok a
  | .error failure => .error (.failed failure)

/-- The options that set up the environment. -/
def environmentForms : List OptionForm := [⟨"--env", .value⟩, ⟨"--env-file", .value⟩]

/-- The setting that a text writes. -/
def setting? (text : String) : Option (String × String) :=
  match splitAtEquals text with
  | (name, some value) => some (name, value)
  | (_, none) => none

/-- The host with a variable, if there can be one of this name and value. -/
def setVariable (host : Host) (name value : String) : Except Failure Host :=
  if name.isEmpty then .error .namelessVariable
  else if name.contains '=' || (name ++ value).contains '\x00' then .error .badVariable
  else .ok (host.setVariable name value)

/-- The host with variables, set one after the other. -/
def setVariables (host : Host) (settings : List (String × String)) : Except Failure Host :=
  settings.foldlM (fun host (name, value) => setVariable host name value) host

/-- A text in an environment file. -/
def textOf : Json → Except Failure String
  | .str s => .ok s
  | _ => .error .illTyped

/-- A name and a value in an environment file: two texts, or a text of two characters. -/
def pairOf : Json → Except Failure (String × String)
  | .arr [name, value] => do return (← textOf name, ← textOf value)
  | .obj [(name, _), (value, _)] => .ok (name, value)
  | .str s =>
    match s.toList with
    | [name, value] => .ok (name.toString, value.toString)
    | _ => .error .notAPair
  | .arr _ | .obj _ => .error .notAPair
  | _ => .error .illTyped

/-- The settings in an environment file: an object, or a list of pairs. -/
def settingsOf : Json → Except Failure (List (String × String))
  | .obj fields => fields.mapM fun (name, value) => do return (name, ← textOf value)
  | .arr pairs => pairs.mapM pairOf
  | .str s => if s.isEmpty then .ok [] else .error .notAPair
  | _ => .error .illTyped

/-- The settings in a file. -/
def readSettings (content : Files.Content) : Except Failure (List (String × String)) := do
  let decoded := content.decoded
  if decoded.fault.isSome then throw .undecodable
  match Json.parse (String.ofList decoded.text) with
  | .ok v => settingsOf v
  | .error _ => throw .badJson

/-- The content of the last environment file; all of them must open. -/
def openSettings (host : Host) (a : Arguments) : Except UsageError (Option Files.Content) :=
  (a.values "--env-file").foldlM (fun _ path =>
    match host.files.read path with
    | .ok content => .ok (some content)
    | .error _ => .error (.cannotOpen "--env-file" path)) none

/-- The host with the variables of `--env` and of an environment file. -/
def setUp (host : Host) (a : Arguments) (file : Option Files.Content) : Except Stop Host := do
  match (a.values "--env").mapM setting? with
  | none =>
    throw {
      ending := .exit 1
      output := "--env arguments must each contain =. To unset an environment variable, " ++
        "use 'ENV='\n" }
  | some settings =>
    let host ← orFailed (setVariables host settings)
    match file with
    | none => return host
    | some content => orFailed (do setVariables host (← readSettings content))

end Kconfig.Tool
