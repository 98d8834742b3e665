import Kconfig.Expr.Basic
/-!
What is told to the user.

A `Warning` is a recoverable problem; the journal keeps every warning with the place it belongs to,
the messages of the sanity checks, and what was printed on the two output streams. Switches decide
which of them are recorded and shown.
-/
namespace Kconfig

/-- The word of a level. -/
def levelWord (level : Bool) : String := if level then "y" else "n"

/-- A symbol that forces another one, as a warning shows it. -/
structure Selector where
  owner : String
  value : String
  deps : String
  depLevel : Bool
  cond : Option (String × Bool)
  deriving DecidableEq, Repr

/-- A place that mentions a symbol: file, line, and the text of the entry. -/
structure Mention where
  file : String
  line : Nat
  text : String
  deriving DecidableEq, Repr

/-- Recoverable problems. An `owner` is a symbol or choice with the places that define it. -/
inductive Warning where
  -- while files are read
  | unquotedWord (word line : String)
  | emptyHelp (owner : String)
  | repeatedHelp (owner : String)
  | promptlessMenuconfig (owner : String)
  | repeatedPrompt (owner : String)
  | promptBlanks (owner : String)
  | retyped (owner type : String)
  | unsetVariable (name variableName : String)
  | renamedVariable (name variableName : String)
  | repeatedDefconfigList (first second : String)
  | shellErrors (command output : String)
  | stated (message : String)
  | unknownSymbol (name : String)
  -- while the model is checked
  | targetNotBool (owner verb type target : String)
  | unquotedDefault (owner : String)
  | defaultNotNumber (type owner default : String)
  | selectsOnNonBool (type owner : String)
  | untyped (owner : String)
  | rangesOnNonNumber (type owner : String)
  | rangeNotNumber (type owner low high : String)
  | choiceNotBool (owner type : String)
  | choiceWithoutPrompt (owner : String)
  | defaultOutsideChoice (default owner : String)
  | defaultOnMember (owner : String)
  | memberForced (owner verb : String) (selectors : List String)
  | memberWithoutPrompt (owner : String)
  | memberPromptOutside (owner : String)
  | undefinedSymbol (name : String) (mentions : List Mention)
  -- while values are computed and assigned
  | logicalContext (type owner : String)
  | valueOutOfRange (value type owner low high : String)
  | defaultClamped (value owner clamp low high : String)
  | unmetSelect (owner deps : String) (depLevel level : Bool) (selectors : List Selector)
  | invalidValue (value owner type : String)
  | noPrompt (owner : String)
  -- while configurations are loaded
  | assignsUndefined (value name : String)
  | badBoolValue (value type owner : String)
  | conflictingMembers
  | badLiteral (owner : String)
  | badLine (line : String)
  | setTwice (owner old new : String)
  deriving DecidableEq, Repr

/-- A selector in words. -/
def Selector.message (s : Selector) : String :=
  s!"\n - {s.owner}, with value {s.value}, direct dependencies " ++
    s!"{s.deps} (value: {levelWord s.depLevel})" ++
    match s.cond with
    | some (cond, level) => s!", and select condition {cond} (value: {levelWord level})"
    | none => ""

/-- A mention in words. -/
def Mention.message (m : Mention) : String := s!"\n\n- Referenced at {m.file}:{m.line}:\n\n{m.text}"

/-- A warning in words. -/
def Warning.message : Warning → String
  | .unquotedWord word line => s!"style: quotes recommended around '{word}' in '{line}'"
  | .emptyHelp owner => s!"{owner} has 'help' but empty help text"
  | .repeatedHelp owner =>
    s!"{owner} defined with more than one help text -- only the last one will be used"
  | .promptlessMenuconfig owner => s!"the menuconfig symbol {owner} has no prompt"
  | .repeatedPrompt owner => s!"{owner} defined with multiple prompts in single location"
  | .promptBlanks owner => s!"{owner} has leading or trailing whitespace in its prompt"
  | .retyped owner type => s!"{owner} defined with multiple types, {type} will be used"
  | .unsetVariable name var =>
    s!"{name} has 'option env=\"{var}\"', but the environment variable {var} is not set"
  | .renamedVariable name var =>
    "environment variables are expanded in strings directly, meaning you do not " ++
      "need 'option env=...' \"bounce\" symbols. For compatibility with the C tools, " ++
      s!"rename {name} to {var} (so that the symbol name matches the environment variable name)."
  | .repeatedDefconfigList first second =>
    s!"'option defconfig_list' set on multiple symbols ({first} and {second}). " ++
      s!"Only {first} will be used."
  | .shellErrors command output => s!"'{command}' wrote to stderr: {output}"
  | .stated message => message
  | .unknownSymbol name => s!"no symbol {name} in configuration"
  | .targetNotBool owner verb type target =>
    s!"{owner} {verb} the {type} symbol {target}, which is not bool"
  | .unquotedDefault owner =>
    s!"style: quotes recommended around default value for string symbol {owner}"
  | .defaultNotNumber type owner default =>
    s!"the {type} symbol {owner} has a non-{type} default {default}"
  | .selectsOnNonBool type owner => s!"the {type} symbol {owner} has selects or implies"
  | .untyped owner => s!"{owner} defined without a type"
  | .rangesOnNonNumber type owner =>
    s!"the {type} symbol {owner} has ranges, but is not int or hex"
  | .rangeNotNumber type owner low high =>
    s!"the {type} symbol {owner} has a non-{type} range [{low}, {high}]"
  | .choiceNotBool owner type => s!"{owner} defined with type {type}"
  | .choiceWithoutPrompt owner => s!"{owner} defined without a prompt"
  | .defaultOutsideChoice default owner =>
    s!"the default selection {default} of {owner} is not contained in the choice"
  | .defaultOnMember owner =>
    s!"default on the choice symbol {owner} will have no effect, " ++
      "as defaults do not affect choice symbols"
  | .memberForced owner verb selectors =>
    s!"the choice symbol {owner} is {verb} by the following symbols, " ++
      "but select/imply has no effect on choice symbols" ++
      String.join (selectors.map fun s => s!"\n - {s}")
  | .memberWithoutPrompt owner => s!"the choice symbol {owner} has no prompt"
  | .memberPromptOutside owner =>
    s!"the choice symbol {owner} is defined with a prompt outside the choice"
  | .undefinedSymbol name mentions =>
    s!"undefined symbol {name}:" ++ String.join (mentions.map Mention.message)
  | .logicalContext type owner =>
    s!"The {type} symbol {owner} is being evaluated in a logical " ++
      "context somewhere. It will always evaluate to n."
  | .valueOutOfRange value type owner low high =>
    s!"user value {value} on the {type} symbol {owner} ignored due to being outside the " ++
      s!"active range ([{low}, {high}]) -- falling back on defaults"
  | .defaultClamped value owner clamp low high =>
    s!"default value {value} on {owner} clamped to {clamp} due to " ++
      s!"being outside the active range ([{low}, {high}])"
  | .unmetSelect owner deps depLevel level selectors =>
    s!"{owner} has direct dependencies {deps} with value {levelWord depLevel}, " ++
      s!"but is currently being {levelWord level}-selected by the following symbols:" ++
      String.join (selectors.map Selector.message)
  | .invalidValue value owner type =>
    s!"the value {value} is invalid for {owner}, which has type {type} -- assignment ignored"
  | .noPrompt owner => s!"{owner} has no prompt, meaning user values have no effect on it"
  | .assignsUndefined value name =>
    s!"attempt to assign the value '{value}' to the undefined symbol {name}"
  | .badBoolValue value type owner =>
    s!"'{value}' is not a valid value for the {type} symbol {owner}. Assignment ignored."
  | .conflictingMembers => "conflicting values assigned to symbols within the same choice"
  | .badLiteral owner => s!"malformed string literal in assignment to {owner}. Assignment ignored."
  | .badLine line => s!"ignoring malformed line '{line}'"
  | .setTwice owner old new =>
    s!"{owner} set more than once. Old value \"{old}\", new value \"{new}\"."

/-- A warning and the line it belongs to, if it belongs to one. -/
structure Notice where
  place : Option (String × Nat)
  warning : Warning
  deriving DecidableEq, Repr

/-- A notice as it is shown. -/
def Notice.text (notice : Notice) : String :=
  match notice.place with
  | some (file, line) => s!"{file}:{line}: warning: {notice.warning.message}"
  | none => s!"warning: {notice.warning.message}"

/-- Everything told so far. -/
structure Journal where
  warns : Bool := true
  informs : Bool := true
  showsWarnings : Bool := true
  notices : Array Notice := #[]
  messages : List String := []
  repeated : List (String × List String) := []
  output : String := ""
  errors : String := ""
  deriving Inhabited

namespace Journal

/-- The journal with a text printed. -/
def print (j : Journal) (text : String) : Journal := { j with output := j.output ++ text }

/-- The journal with a text printed on the error stream. -/
def printError (j : Journal) (text : String) : Journal := { j with errors := j.errors ++ text }

/-- The journal with a warning, unless warnings are off. -/
def warn (j : Journal) (place : Option (String × Nat)) (warning : Warning) : Journal :=
  if !j.warns then j
  else
    let notice : Notice := ⟨place, warning⟩
    let j := { j with notices := j.notices.push notice }
    if j.showsWarnings then j.printError (notice.text ++ "\n") else j

/-- The journal with a message, unless messages are off; a repeated message is kept once. -/
def inform (j : Journal) (message : String) : Journal :=
  if !j.informs then j
  else
    let messages := if j.messages.contains message then j.messages else j.messages ++ [message]
    { j with messages }.printError s!"info: {message}\n"

/-- The journal with the places that define a name. -/
def addRepeated (j : Journal) (name : String) (places : List String) : Journal :=
  let rec add : List (String × List String) → List (String × List String)
    | [] => [(name, places)]
    | (n, ps) :: more =>
      if n = name then (n, ps ++ places.filter (!ps.contains ·)) :: more else (n, ps) :: add more
  { j with repeated := add j.repeated }

/-- The warnings as they are shown. -/
def warnings (j : Journal) : List String := j.notices.toList.map Notice.text

theorem notices_warn (j : Journal) (place : Option (String × Nat)) (warning : Warning) :
    (j.warn place warning).notices =
      if j.warns then j.notices.push ⟨place, warning⟩ else j.notices := by
  unfold warn
  cases j.warns <;> simp
  split <;> rfl

/-- Warnings are told on the error stream. -/
theorem output_warn (j : Journal) (place : Option (String × Nat)) (warning : Warning) :
    (j.warn place warning).output = j.output := by
  unfold warn
  split
  · rfl
  · dsimp only
    split <;> rfl

end Journal
end Kconfig
