import Kconfig.Menu.Request
import Kconfig.Tool.Outcome
/-!
The command that serves the menu of a configuration to an interface, one request a line.
-/
namespace Kconfig.Tool

structure ServeOptions where
  kconfig : String
  config : ConfigTarget
  showsAll : Bool
  /-- The version of answers to lines that have none. -/
  version : Int

def serveForms : List OptionForm :=
  environmentForms ++ [⟨"--kconfig", .value⟩, ⟨"--config", .value⟩, ⟨"--show-all", .nothing⟩,
    ⟨"--version", .value⟩]

/-- The number that the last use of an option gives; all uses must give one. -/
def numberOf (a : Arguments) (name : String) (standard : Int) : Except UsageError Int :=
  (a.values name).foldlM (fun _ value =>
    match Text.readInt .ten value.toList with
    | some n => .ok n
    | none => .error (.notANumber name value)) standard

def ServeOptions.ofArguments (a : Arguments) : Except UsageError ServeOptions := do
  return {
    kconfig := ← a.require "--kconfig"
    config := (a.value? "--config").elim .standard .path
    showsAll := a.has "--show-all"
    version := ← numberOf a "--version" protocolVersion }

/-- What the arguments ask for, and the host with its environment set up. -/
def prepareServe (host : Host) (args : List String) : Except Stop (Host × ServeOptions) := do
  let command := "kconfmenu"
  let a ← orUsage command (Arguments.read serveForms 0 args)
  let options ← orUsage command (ServeOptions.ofArguments a)
  let file ← orUsage command (openSettings host a)
  if options.version ≠ protocolVersion then
    throw {
      ending := .exit 1
      errors := s!"Version {options.version} is not supported. " ++
        s!"Supported protocol versions are {protocolVersions}.\n" }
  return (← setUp host a file, options)

/-- Opens the session that arguments ask for. -/
def openSession (host : Host) (args : List String) : Except Outcome (Session × ServeOptions) :=
  match prepareServe host args with
  | .error stop => .error (stop.outcome host.files)
  | .ok (host, options) =>
    match Session.open? host options.kconfig options.config options.showsAll none with
    | .ok s _ => .ok (s, options)
    | .error failure w =>
      .error (.unloaded (s!"Failed to parse {options.kconfig}: {·}") failure w)

/-- Runs the command that serves on the lines of its input. -/
def runServe (host : Host) (args lines : List String) : Outcome :=
  match openSession host args with
  | .error outcome => outcome
  | .ok (s, options) =>
    match (Session.serve options.version lines).run s with
    | .ok _ s => .of (.exit 0) s.host.files s.journal
    | .error failure s => .of (.failed failure) s.host.files s.journal

end Kconfig.Tool
