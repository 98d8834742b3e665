import Kconfig.Reading.Workspace
/-!
Lines of Kconfig files as statements.

A statement says what a line is. Its parts are actions, performed only when the line is put to use:
a part that is wrong fails at that moment, after everything that comes before it on the line has
had its effect. Both notations of lines give statements, so building the model does not depend on
the notation.
-/
namespace Kconfig

/-- The text of a prompt and when it is shown. -/
structure PromptPart where
  text : Reading String
  cond : Reading Expr

/-- What follows the word `option`. -/
inductive OptionPart where
  | env (name : String)
  | defconfigList
  | allnoconfigY
  deriving DecidableEq, Repr

inductive Statement where
  -- entries and blocks
  | config (isMenuconfig : Bool) (name : Reading SymbolId)
  | menu (prompt : Reading String)
  | comment (prompt : Reading String)
  | mainmenu (prompt : Reading String)
  | choice (name : Reading (Option String))
  | source (isRelative isRequired : Bool) (path : Reading String)
  | block (cond : Reading Expr)
  | close (kind : BlockKind) (tail : Reading Unit)
  | stray
  -- properties of an entry
  | type (t : ValueType) (prompt : Option PromptPart)
  | prompt (part : PromptPart)
  | depends (cond : Reading Expr)
  | visible (cond : Reading Expr)
  | select (target : Reading SymbolId) (cond : Reading Expr)
  | imply (target : Reading SymbolId) (cond : Reading Expr)
  | default (value : Reading Expr) (cond : Reading Expr)
  | range (bounds : Reading Bounds) (cond : Reading Expr)
  | option (part : Reading OptionPart)
  | optional
  | help

/-- Whether a statement is a property of the entry before it. -/
def Statement.isProperty : Statement → Bool
  | .config .. | .menu .. | .comment .. | .mainmenu .. | .choice .. | .source .. | .block ..
  | .close .. | .stray => false
  | _ => true

namespace Reading

/-- Whether a character may stand in a name marked by a remark. -/
def isRemarkNameChar (c : Char) : Bool := c.isAlphanum || c == '_'

/-- The text after a word. -/
def after? (word : String) (s : List Char) : Option (List Char) :=
  if word.toList.isPrefixOf s then some (s.drop word.length) else none

/-- The text after blanks, of which there must be some. -/
def afterBlanks? : List Char → Option (List Char)
  | c :: s => if Text.isBlank c then some (Text.trimLeft s) else none
  | [] => none

/-- The symbol (or choice) whose several definitions a remark on its line allows: whether it is a
choice, and its name. -/
def allowedByRemark? (line : List Char) : Option (Bool × String) := do
  let s := Text.trimLeft line
  let (isChoice, s) ← match after? "config" s with
    | some s => some (false, s)
    | none => (after? "choice" s).map fun s => (true, s)
  let s ← afterBlanks? s
  let name := s.takeWhile isRemarkNameChar
  let s ← afterBlanks? (s.drop name.length)
  let s ← after? "# ignore: " s
  if name.isEmpty || ((after? "multiple-definition" s).isNone && (after? "MD" s).isNone) then none
  else pure (isChoice, String.ofList name)

/-- Notes the name that a line's remark allows to be defined more than once. -/
def noteRemark (line : List Char) : Reading Unit :=
  match allowedByRemark? line with
  | none => pure ()
  | some (true, name) => modify fun w =>
    if w.allowedChoices.contains name then w
    else { w with allowedChoices := w.allowedChoices ++ [name] }
  | some (false, name) => modify fun w =>
    if w.allowedSymbols.contains name then w
    else { w with allowedSymbols := w.allowedSymbols ++ [name] }

/-- Makes a line the one that is read. -/
def beginLine (line : List Char) : Reading Unit := do
  modify fun w => { w with place.spot.text := String.ofList line }
  noteRemark line

end Reading
end Kconfig
