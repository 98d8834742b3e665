import Kconfig.Config.Basic
import Kconfig.Reading.TokenLine
/-!
Evaluating an expression that is given by hand.

The expression is read in the notation of tokens, as if it followed `if` on a line without a file.
Names that are not known are warned about.
-/
namespace Kconfig.Configuring

/-- Whether the expression that a text writes holds. -/
def evaluate (s : String) : Configuring Bool := do
  modify fun c => { c with place.spot.file := none }
  holds (← reading (Reading.expression s))

end Kconfig.Configuring
