import Kconfig.Text.Blank
import Kconfig.Text.Lines
/-!
Help texts.

A help text starts at the first line that is not blank, which sets its indentation, and goes on
as long as lines are blank or have at least that indentation. A first line without indentation, or
no line at all, leaves the help text empty.
-/
namespace Kconfig

namespace HelpText

/-- The number of columns before the first character that is not blank. -/
def indentation (line : List Char) : Nat :=
  let columns := Text.expandTabs line
  columns.length - (Text.trimLeft columns).length

/-- A line without the indentation of the text; blank lines are empty. -/
def body (indent : Nat) (line : List Char) : List Char :=
  if Text.allBlank line then ['\n'] else (Text.expandTabs line).drop indent

end HelpText
end Kconfig
