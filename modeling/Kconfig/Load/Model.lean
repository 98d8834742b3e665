import Kconfig.Config.Basic
import Kconfig.Load.Checks
import Kconfig.Model.Finalize
import Kconfig.Reading.Files
import Kconfig.Text.Pattern
/-!
Loading a model: from the files to a configuration without user values.

The files are read, the blocks settled into the menu tree, the model checked, and dependency loops
refused. From then on names that are not known are only mentioned, not added.
-/
namespace Kconfig

/-- What a caller decides about loading. -/
structure LoadOptions where
  name : String := "Kconfig"
  warns : Bool := true
  informs : Bool := true
  showsWarnings : Bool := true
  /-- The version of the notation; without one the environment decides. -/
  version : Option Int := none
  deriving Inhabited

namespace Load

/-- The version of the notation that the environment asks for. -/
def environmentVersion (host : Host) : Except Failure Int :=
  match Text.readInt .ten ((host.lookup? "KCONFIG_PARSER_VERSION").getD "1").toList with
  | some n => .ok n
  | none => .error .notANumber

/-- The version that a caller gives unless it is zero, or else the environment's. -/
def versionFor (host : Host) : Option Int → Except Failure Int
  | some n => if n = 0 then environmentVersion host else .ok n
  | none => environmentVersion host

/-- The dialect of a version. -/
def dialectOf (host : Host) (version : Int) : Except Failure Dialect :=
  if version = 1 then .ok .tokens
  else if version = 2 then .ok (.forms host.expression)
  else .error (.fatal (.parserVersion version))

/-- The mark of names in configuration files. -/
def markOf (host : Host) : String := (host.lookup? "CONFIG_").getD "CONFIG_"

/-- The mark must be a pattern. -/
def checkMark (host : Host) : Except Failure Unit :=
  if (Pattern.ofText? (markOf host).toList).isSome then .ok () else .error .badVariable

/-- What the environment decides. -/
def settingsFor (host : Host) (version : Int) : Settings where
  version := version
  srctree := (host.lookup? "srctree").getD ""
  configPrefix := markOf host
  configHeader := (host.lookup? "KCONFIG_CONFIG_HEADER").getD ""
  headerHeader := (host.lookup? "KCONFIG_AUTOHEADER_HEADER").getD ""
  verbosity := (host.lookup? "KCONFIG_REPORT_VERBOSITY").getD "default"

/-- The workspace before the top file is read: its model has the top node only. -/
def start (host : Host) (options : LoadOptions) (version : Int) : Workspace where
  host := host
  journal :=
    { warns := options.warns, informs := options.informs, showsWarnings := options.showsWarnings }
  settings := settingsFor host version
  place := { spot := ⟨some options.name, 0, ""⟩ }
  files := [options.name]
  model :=
    { Model.empty with
      nodes := #[{
        entry := .menu, isMenuconfig := true, file := options.name, line := 1
        prompt := some ⟨"Main menu", .yes⟩ }] }

/-- Reads the files and makes them a model without loops. -/
def readModel (dialect : Dialect) (name : String) : Reading Unit := do
  let table ← Reading.readLinks dialect name
  match ((← get).model.withLinks table).finalize with
  | none => throw .endless
  | some m => modify fun w => { w with isOpen := false, model := m }
  Reading.checkModel
  let m := (← get).model
  match m.findLoop? m.readers with
  | some loop => Reading.fatal (.dependencyLoop (loop.map m.loopLink))
  | none => pure ()

/-- The version and the dialect that a model is loaded with. -/
def prepared (host : Host) (options : LoadOptions) : Except Failure (Int × Dialect) := do
  let version ← versionFor host options.version
  let dialect ← dialectOf host version
  checkMark host
  pure (version, dialect)

/-- Loads a model. When that fails, the workspace holds what was told and done before. -/
def load (host : Host) (options : LoadOptions) :
    EStateM.Result Failure Workspace Configuration :=
  match prepared host options with
  | .error failure => .error failure (start host options 0)
  | .ok (version, dialect) =>
    match (readModel dialect options.name).run (start host options version) with
    | .error failure w => .error failure w
    | .ok _ w => .ok (.ofWorkspace w) w

end Load
end Kconfig
