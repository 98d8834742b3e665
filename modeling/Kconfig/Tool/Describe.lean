import Kconfig.Config.Describe
import Kconfig.Load.Model
import Kconfig.Tool.Outcome
/-!
The command that describes a model in one line, or complains that it cannot be loaded.
-/
namespace Kconfig.Tool

/-- Runs the command that describes, under the name it was called by. -/
def runDescribe (command : String) (host : Host) (args : List String) : Outcome :=
  match orUsage command (Arguments.read [] 1 args) with
  | .error stop => stop.outcome host.files
  | .ok a =>
    match Load.load host { name := a.operands.headD "Kconfig" } with
    | .ok c _ => .of (.exit 0) c.host.files (c.journal.print (c.description ++ "\n"))
    | .error failure w =>
      let ending := match failure.message? with
        | some message =>
          .complaint ((if command.isEmpty then "" else command ++ ": ") ++ Text.trimmed message)
        | none => .failed failure
      .of ending w.host.files w.journal

end Kconfig.Tool
