import Kconfig.Config.Line
import Kconfig.Config.Report
import Kconfig.Config.Save
import Kconfig.Config.Values
import Kconfig.Load.Model
import Kconfig.Menu.Item
import Kconfig.Tool.Outcome
/-!
The command that writes a configuration in several formats.

It loads a model, then the files of defaults, then the configuration, each on top of what was there.
Every output file is computed first and written only when it differs from what the file holds.
-/
namespace Kconfig.Tool

inductive OutputFormat where
  | config | header | minimal | values | menu
  deriving DecidableEq, Repr

/-- The word for a format. -/
def OutputFormat.word : OutputFormat → String
  | .config => "config"
  | .header => "header"
  | .minimal => "savedefconfig"
  | .values => "json"
  | .menu => "json_menus"

def OutputFormat.all : List OutputFormat := [.config, .header, .minimal, .values, .menu]

def OutputFormat.ofWord? (word : String) : Option OutputFormat :=
  all.find? (·.word == word)

structure WriteOptions where
  kconfig : String
  config : Option String
  /-- The files of defaults; one that is not named is none. -/
  defaults : List (Option String)
  /-- The words for formats, with the paths to write. -/
  outputs : List (String × String)
  report : Option String

def writeForms : List OptionForm :=
  environmentForms ++ [⟨"--config", .atMostOne⟩, ⟨"--defaults", .atMostOne⟩, ⟨"--kconfig", .value⟩,
    ⟨"--output", .two⟩, ⟨"--report-json", .value⟩]

def WriteOptions.ofArguments (a : Arguments) : Except UsageError WriteOptions := do
  return {
    kconfig := ← a.require "--kconfig"
    config := a.value? "--config"
    defaults := (a.all "--defaults").map List.head?
    outputs := (a.all "--output").filterMap fun
      | [format, path] => some (format, path)
      | _ => none
    report := (a.value? "--report-json").filter (!·.isEmpty) }

/-- The formats to write, if all of them are known. -/
def knownOutputs : List (String × String) → Except Stop (List (OutputFormat × String))
  | [] => .ok []
  | (word, path) :: more =>
    match OutputFormat.ofWord? word with
    | some format => (knownOutputs more).map ((format, path) :: ·)
    | none =>
      let known := ", ".intercalate (OutputFormat.all.map OutputFormat.word)
      .error {
        ending := .exit 1
        output := s!"Format '{word}' not recognised. Known formats: {known}\n" }

/-- The start of configurations. -/
def configHeading : String :=
  "#\n# Automatically generated file. DO NOT EDIT.\n# Project Configuration\n#\n"

/-- The start of C headers. -/
def headerHeading : String :=
  "/*\n * Automatically generated file. DO NOT EDIT.\n * Project Configuration Header\n */\n" ++
    "#pragma once\n"

/-- The start of minimal configurations. -/
def minimalHeading : String :=
  "# This file was generated with kconfwrite savedefconfig. It can be edited manually.\n" ++
    "# Project Minimal Configuration\n#\n"

/-- A line that says `is not set` as an assignment of `n`; other lines as they are. -/
def assignUnset (mark line : String) : String :=
  match (Pattern.ofText? mark.toList).bind fun p => ConfigLine.unset? p line.toList with
  | some name => mark ++ String.ofList name ++ "=n"
  | none => line

/-- Fields in the order of their names. -/
def sortedFields : Json → Json
  | .obj fields => .obj (fields.mergeSort fun a b => a.1 ≤ b.1)
  | v => v

/-- The text of an output. -/
def outputText : OutputFormat → Configuring String
  | .config => Configuring.configText (some configHeading)
  | .header => Configuring.headerText (some headerHeading)
  | .minimal => do
    let start := (← get).settings.configPrefix
    let text ← Configuring.minimalText (some minimalHeading)
    return "\n".intercalate ((Text.linesOf text).map (assignUnset start)) ++ "\n"
  | .values => do return (sortedFields (← Configuring.jsonValues)).indented
  | .menu => do
    let rows ← Configuring.follow ((← get).model.rows false)
    return (Json.arr ((MenuItem.ofRows rows).map MenuItem.toJson)).indented

/-- Writes an output, unless the file holds it. -/
def writeOutput (format : OutputFormat) (path : String) : Configuring Unit := do
  let text := String.ofList (Text.unifyLineEnds (← outputText format).toList)
  let isPresent ← if (← get).host.files.exists? path then holdsAll path text else pure false
  unless isPresent do Configuring.writeFile path text
where
  /-- Whether a file can be read and holds a text. -/
  holdsAll (path text : String) : Configuring Bool := do
    let content ← Configuring.onFiles path fun files => do return (← files.read path, files)
    let decoded := content.decoded
    if decoded.fault.isSome then throw .undecodable
    return decoded.text == text.toList

/-- Loads a file of defaults; without it, says what ends the run. -/
def loadDefaults (name : String) : Configuring (Option String) := do
  if !(← get).host.files.exists? name then return some s!"Defaults file not found: {name}"
  let _ ← Configuring.loadConfig (some name) false
  for (symbol, value) in (← get).missing do
    Configuring.print
      s!"warning: unknown kconfig symbol '{symbol}' assigned to '{value}' in {name}\n"
  return none

/-- Loads files of defaults up to one that is missing. -/
def loadAllDefaults : List (Option String) → Configuring (Option String)
  | [] => return none
  | name :: more => do
    Configuring.print s!"Loading defaults file {(Json.ofText? name).asText}...\n"
    match name with
    | none => throw .illTyped
    | some name =>
      match ← loadDefaults name with
      | some message => return some message
      | none => loadAllDefaults more

/-- Loads the configuration if its file is there. -/
def loadPresent (name : String) : Configuring (Option String) := do
  if name.isEmpty || !(← get).host.files.exists? name then return none
  try
    let _ ← Configuring.loadConfig (some name) false
    return none
  catch
    | .fatal error => return some (Text.trimmed error.message)
    | failure => throw failure

/-- Loads and writes what the options say, up to a fatal error. -/
def write (options : WriteOptions) (outputs : List (OutputFormat × String)) :
    Configuring (Option String) := do
  modify ({ · with warnsRedundant := false, warnsOverride := false })
  if let some message ← loadAllDefaults options.defaults then return some message
  if let some message ← loadPresent (options.config.getD "") then return some message
  for (format, path) in outputs do writeOutput format path
  if let some path := options.report then
    Configuring.writeFile path (← get).report.indented
  return none

/-- What the arguments ask for, and the host with its environment set up. -/
def prepareWrite (host : Host) (args : List String) :
    Except Stop (Host × WriteOptions × List (OutputFormat × String)) := do
  let command := "kconfwrite"
  let a ← orUsage command (Arguments.read writeForms 0 args)
  let options ← orUsage command (WriteOptions.ofArguments a)
  let file ← orUsage command (openSettings host a)
  let outputs ← knownOutputs options.outputs
  return (← setUp host a file, options, outputs)

/-- Runs the command that writes. -/
def runWrite (host : Host) (args : List String) : Outcome :=
  match prepareWrite host args with
  | .error stop => stop.outcome host.files
  | .ok (host, options, outputs) =>
    match Load.load host { name := options.kconfig } with
    | .error failure w => .unloaded id failure w
    | .ok c _ =>
      match (write options outputs).run c with
      | .ok none c => .of (.exit 0) c.host.files c.journal
      | .ok (some message) c =>
        .of (.exit 2) c.host.files (c.journal.print (fatalText message))
      | .error failure c => .of (.failed failure) c.host.files c.journal

end Kconfig.Tool
