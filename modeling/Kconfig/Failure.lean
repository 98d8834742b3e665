import Kconfig.Files.Store
import Kconfig.Json.Display
/-!
Why an operation fails.

`Problem` is what is wrong with a line, `Fatal` an error in Kconfig files or configurations, and
`Failure` anything that ends an operation. Each has one function that gives its words.
-/
namespace Kconfig

/-- The blocks that lines open and close. -/
inductive BlockKind where
  | choice | condition | menu
  deriving DecidableEq, Repr

/-- The word that opens a block; its end has `end` before it. -/
def BlockKind.word : BlockKind → String
  | .choice => "choice"
  | .condition => "if"
  | .menu => "menu"

/-- What is wrong with a line. -/
inductive Problem where
  | syntaxError | unknownStart | unknownTokens | extraTokens
  | blankMacro | openString | openMacro
  | selfReference (name : String) | endlessFunction (name : String)
  | badName | expectedString | expectedPrompt | expectedSymbol | expectedNonconstant
  | expectedChoiceName | malformedExpression
  | expectedOn | expectedOnExpression | expectedIf | expectedIfExpression | expectedEnvValue
  | unknownOption | unknownConstruct | noOpenBlock (kind : BlockKind)
  | selectOutsideSymbol | implyOutsideSymbol | allnoconfigOutsideSymbol | optionalOutsideChoice
  deriving DecidableEq, Repr

/-- A problem in words. -/
def Problem.message : Problem → String
  | .syntaxError => "syntax error"
  | .unknownStart => "unknown token at start of line"
  | .unknownTokens => "unknown tokens in line"
  | .extraTokens => "extra tokens at end of line"
  | .blankMacro => "macro expanded to blank string"
  | .openString => "unterminated string"
  | .openMacro => "missing end parenthesis in macro expansion"
  | .selfReference v => s!"Preprocessor variable {v} recursively references itself"
  | .endlessFunction f => s!"Preprocessor function {f} seems stuck in infinite recursion"
  | .badName => "missing or bad symbol name"
  | .expectedString => "expected string"
  | .expectedPrompt => "expected prompt string"
  | .expectedSymbol => "expected symbol"
  | .expectedNonconstant => "expected nonconstant symbol"
  | .expectedChoiceName => "expected choice name"
  | .malformedExpression => "malformed expression"
  | .expectedOn => "expected 'on' after 'depends'"
  | .expectedOnExpression => "expected 'on' after 'depends' followed by an expression"
  | .expectedIf => "expected 'if' after 'visible'"
  | .expectedIfExpression => "expected 'if' after 'visible' followed by an expression"
  | .expectedEnvValue => "expected '=' after 'env'"
  | .unknownOption => "unrecognized option"
  | .unknownConstruct => "unrecognized construct"
  | .noOpenBlock kind => s!"no corresponding '{kind.word}'"
  | .selectOutsideSymbol => "only symbols can select"
  | .implyOutsideSymbol => "only symbols can imply"
  | .allnoconfigOutsideSymbol => "the 'allnoconfig_y' option is only valid for symbols"
  | .optionalOutsideChoice => "\"optional\" is only valid for choices"

/-- A line of a file: where it stands and what it says. Expressions given by hand have no file. -/
structure Spot where
  file : Option String
  line : Nat
  text : String
  deriving DecidableEq, Repr, Inhabited

/-- File and line, when there is a file. -/
def Spot.place (spot : Spot) : String :=
  match spot.file with
  | some file => s!"{file}:{spot.line}: "
  | none => ""

/-- File and line, with a word for no file. -/
def Spot.fullPlace (spot : Spot) : String := s!"{spot.file.getD (Json.display .null)}:{spot.line}"

/-- An item of a dependency loop as its message shows it. -/
structure LoopLink where
  owner : String
  definition : String
  isMember : Bool
  selectedIf : Option String
  impliedIf : Option String
  deriving DecidableEq, Repr

/-- An error in Kconfig files, in a configuration file, or in what they say together. -/
inductive Fatal where
  | badLine (spot : Spot) (problem : Problem)
  | openBlock (kind : BlockKind) (file : String)
  | sourceNotFound (spot : Spot) (pattern : String) (srctree : String)
  | recursiveSource (spot : Spot) (file : String) (includes : List (String × Nat))
  | stated (spot : Spot) (message : String)
  | argumentCount (spot : Spot) (function : String) (expected given : Nat)
  | undecodableFile (file : String) (fault : Text.Fault)
  | undecodableMacro (spot : Spot) (fault : Text.Fault)
  | badDefault (type owner expr : String)
  | badChoiceDefault (owner expr : String)
  | dependencyLoop (links : List LoopLink)
  | parserVersion (version : Int)
  deriving DecidableEq, Repr

/-- How messages speak of the source tree. -/
def srctreeWords (srctree : String) : String :=
  if srctree.isEmpty then "unset or blank" else s!"set to '{srctree}'"

/-- Bytes that do not decode, in words. -/
def faultMessage (place : String) (fault : Text.Fault) : String :=
  s!"\nMalformed utf-8 in {place}\nContext: {Text.quotedBytes fault.surroundings}\n" ++
    s!"Problematic data: {Text.quotedBytes fault.culprit}\nReason: {fault.reason.message}"

/-- The part of a loop's message about one item; all but the first depend on the one before. -/
def LoopLink.message (first : Bool) (link : LoopLink) : String :=
  (if first then "" else "...depends on " ++ if link.isMember then "the choice symbol " else "") ++
    s!"{link.owner}, with definition...\n\n{link.definition}\n\n" ++
    (match link.selectedIf with
      | some e => s!"(select-related dependencies: {e})\n\n"
      | none => "") ++
    match link.impliedIf with
    | some e => s!"(imply-related dependencies: {e})\n\n"
    | none => ""

/-- A loop, from its first item back to it. -/
def loopMessage : List LoopLink → String
  | [] => ""
  | first :: rest =>
    "\nDependency loop\n===============\n\n" ++ first.message true ++
      String.join (rest.map (LoopLink.message false)) ++ "...depends again on " ++ first.owner

/-- An error in words. -/
def Fatal.message : Fatal → String
  | .badLine spot problem =>
    s!"{spot.place}error: couldn't parse '{Text.trimmed spot.text}': {problem.message}"
  | .openBlock kind file => s!"error: expected end{kind.word} at end of {file}"
  | .sourceNotFound spot pattern srctree =>
    s!"{spot.fullPlace}: '{pattern}' not found (in '{Text.trimmed spot.text}'). Check that " ++
      s!"environment variables are set correctly (e.g. $srctree, which is " ++
      s!"{srctreeWords srctree}). " ++
      "Also note that unset environment variables expand to the empty string."
  | .recursiveSource spot file includes =>
    s!"\n{spot.fullPlace}: recursive 'source' of '{file}' detected. Check that " ++
      "environment variables are set correctly.\nInclude path:\n" ++
      "\n".intercalate (includes.map fun (name, line) => s!"{name}:{line}")
  | .stated spot message => s!"{spot.fullPlace}: {message}"
  | .argumentCount spot function expected given =>
    s!"{spot.fullPlace}: bad number of arguments in call to {function}, " ++
      s!"expected {expected}, got {given}"
  | .undecodableFile file fault => faultMessage s!"'{file}'" fault
  | .undecodableMacro spot fault => faultMessage s!"output from macro at {spot.fullPlace}" fault
  | .badDefault type owner expr =>
    s!"the {type} symbol {owner} has a malformed default {expr} -- expected a single symbol"
  | .badChoiceDefault owner expr => s!"{owner} has a malformed default {expr}"
  | .dependencyLoop links => loopMessage links
  | .parserVersion version => s!"unsupported parser version {version}, expected one of 1, 2"

/-- Why an operation ends without a result. -/
inductive Failure where
  | fatal (error : Fatal)
  | file (condition : Files.Condition) (path : String)
  | sourceFile (condition : Files.Condition) (path : String) (spot : Spot)
  | configFile (condition : Files.Condition) (path srctree : String)
  | misplaced
  | notANumber
  | undecodable
  | unknownName
  | noSuchIndex
  | illTyped
  | badJson
  /-- A list of pairs holds something else. -/
  | notAPair
  /-- No environment variable can have this name or value, and no file such a name; or the value is
  no pattern where one is needed. -/
  | badVariable
  | namelessVariable
  | endless
  deriving DecidableEq, Repr

/-- The words of a failure that has some. -/
def Failure.message? : Failure → Option String
  | .fatal error => some error.message
  | .file condition path =>
    some s!"[Errno {condition.number}] {condition.words}: {Text.quotedText path}"
  | .sourceFile condition path spot =>
    some (s!"{spot.fullPlace}: Could not open '{path}' (in '{Text.trimmed spot.text}') " ++
      s!"({condition.code}: {condition.words})")
  | .configFile condition path srctree =>
    some (s!"Could not open '{path}' ({condition.code}: {condition.words}). " ++
      s!"Check that the $srctree environment variable ({srctreeWords srctree}) is set correctly.")
  | .namelessVariable => some "[Errno 22] Invalid argument"
  | _ => none

end Kconfig
