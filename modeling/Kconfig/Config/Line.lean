import Kconfig.Text.Blank
import Kconfig.Text.Escape
import Kconfig.Text.Pattern
/-!
Lines of configuration files.

A line assigns a text to a name, says that a name is not set, or is neither. Names carry a mark
that symbols do not have; it is written as it is, but read as a regular expression. Blanks at the
end of a line do not count, and neither does what follows `is not set`.
-/
namespace Kconfig

inductive ConfigLine where
  | assign (name value : String)
  | unset (name : String)
  | ignored
  | malformed
  deriving DecidableEq, Repr

namespace ConfigLine

/-- The text after a prefix. -/
def after? (start s : List Char) : Option (List Char) :=
  if start.isPrefixOf s then some (s.drop start.length) else none

/-- What an assignment says after the mark: a name up to the first `=`, and the rest as its value. -/
def named? (s : List Char) : Option (List Char × List Char) :=
  let name := s.takeWhile (· != '=')
  match s.dropWhile (· != '=') with
  | _ :: value => if name.isEmpty then none else some (name, value)
  | [] => none

/-- The name that is said not to be set, after the mark. -/
def unsetName? (s : List Char) : Option (List Char) := do
  let name := s.takeWhile (· != ' ')
  let _ ← after? " is not set".toList (s.dropWhile (· != ' '))
  if name.isEmpty then none else some name

/-- The name and value of an assignment. -/
def assignment? (mark : Pattern) (s : List Char) : Option (List Char × List Char) :=
  mark.run (fun here => named? here.left) { left := s }

/-- The name that a line says is not set. -/
def unset? (mark : Pattern) (s : List Char) : Option (List Char) := do
  mark.run (fun here => unsetName? here.left) ⟨some ' ', ← after? "# ".toList s⟩

/-- What a line says by what it assigns or unsets, its end cut off. -/
def ofParts (s : List Char) (assigned : Option (List Char × List Char)) (unset : Option (List Char)) :
    ConfigLine :=
  match assigned, unset with
  | some (name, value), _ => .assign (String.ofList name) (String.ofList value)
  | none, some name => .unset (String.ofList name)
  | none, none => if s.isEmpty || (Text.trimLeft s).head? == some '#' then .ignored else .malformed

/-- What a line says. The mark is a pattern. -/
def read (mark : String) (s : List Char) : ConfigLine :=
  let s := Text.trimRight s
  match Pattern.ofText? mark.toList with
  | some mark => ofParts s (assignment? mark s) (unset? mark s)
  | none => ofParts s none none

end ConfigLine
end Kconfig
