import Kconfig.Config.Basic
/-!
The report on a configuration.

It has three areas: names defined in several places, warnings, and other messages. Areas without
records are left out; the worst area gives the report its status.
-/
namespace Kconfig

inductive Severity where
  | ok | info | warning
  deriving DecidableEq, Repr

/-- The word of a severity. -/
def Severity.word : Severity → String
  | .ok => "OK"
  | .info => "Info"
  | .warning => "Warning"

/-- An area of the report: its title, how bad its records are, and its records. -/
structure ReportArea where
  title : String
  severity : Severity
  records : Json
  rows : List String

namespace Journal

/-- The names defined in several places, each with its places in order. -/
def sortedRepeated (j : Journal) : List (String × List String) :=
  j.repeated.map fun (name, places) => (name, (places.mergeSort (· ≤ ·)).map Text.trimmed)

/-- The area of names defined in several places. -/
def repeatedArea (j : Journal) : ReportArea where
  title := "Multiple Symbol/Choice Definitions"
  severity := if j.repeated.isEmpty then .ok else .info
  records := .obj (j.sortedRepeated.map fun (name, places) => (name, .ofTexts places))
  rows := j.sortedRepeated.flatMap fun (name, places) => name :: places.map ("    " ++ ·)

/-- The area of warnings. -/
def warningsArea (j : Journal) : ReportArea where
  title := "Warnings"
  severity := if j.notices.isEmpty then .ok else .warning
  records := .ofTexts j.warnings
  rows := j.warnings.map ("* " ++ ·)

/-- The area of other messages. -/
def messagesArea (j : Journal) : ReportArea where
  title := "Miscellaneous"
  severity := if j.messages.isEmpty then .ok else .info
  records := .ofTexts j.messages
  rows := j.messages.map ("* " ++ ·)

/-- The areas of the report. -/
def areas (j : Journal) : List ReportArea := [j.repeatedArea, j.warningsArea, j.messagesArea]

/-- The worst severity. -/
def status (j : Journal) : Severity :=
  let severities := j.areas.map (·.severity)
  if severities.contains .warning then .warning
  else if severities.contains .info then .info
  else .ok

end Journal

/-- An area as JSON. -/
def ReportArea.toJson (a : ReportArea) : Json :=
  .obj [("title", .str a.title), ("severity", .str a.severity.word), ("data", a.records)]

/-- The report as JSON. -/
def Configuration.report (c : Configuration) : Json :=
  let header := Json.obj [
    ("report_type", .str "kconfig"),
    ("parser_version", .int c.settings.version),
    ("verbosity", .str c.settings.verbosity),
    ("status", .str c.journal.status.word),
    ("unique_defined_syms", .ofNat c.model.defined.length)]
  let shown := c.journal.areas.filter (·.severity ≠ .ok)
  .obj [("header", header), ("areas", .arr (shown.map ReportArea.toJson))]

end Kconfig
