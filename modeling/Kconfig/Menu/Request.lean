import Kconfig.Json.Parser
import Kconfig.Menu.Session
/-!
Requests to an editing session, and its responses, as lines of JSON.

A request is an object with a `version`. It can turn hidden items on with `show_all`, `load` a file,
`set` items by their numbers and `save` to a file, in this order. The response has the menu as it is
then, the warnings that came up meanwhile, and the errors, which are also told on the error stream.
A line that holds no object is answered with an error alone; a blank line is not answered. A session
stops at a text with half of a surrogate pair, because what it would do with it is not modelled.
-/
namespace Kconfig

/-- What goes wrong with a request. -/
inductive RequestError where
  | notJson (error : Json.ParseError)
  | notObject
  | noVersion
  | badVersion (version : Int)
  | badSettings
  | badItem (id : String)
  | refused (id : String) (value : Json)
  | notSaved (message : String)
  deriving Inhabited

/-- The one version of requests. -/
def protocolVersion : Int := 1

/-- The versions of requests, in words. -/
def protocolVersions : String := s!"{protocolVersion}-{protocolVersion}"

/-- A request error in words. -/
def RequestError.message : RequestError → String
  | .notJson error => s!"JSON formatting error: {error.message}"
  | .notObject => "Requests must be JSON objects"
  | .noVersion => "All requests must have a 'version'"
  | .badVersion version =>
    s!"Unsupported request version {version}. Server supports versions {protocolVersions}"
  | .badSettings => "'set' must map item IDs to values"
  | .badItem id => s!"Invalid item ID {id}"
  | .refused id value => s!"Item {id} could not be set to {value.display}"
  | .notSaved message => s!"Failed to save: {message}"

/-- What a request brings about, besides the menu. -/
structure Response where
  message : Option String := none
  /-- For each item that was to be set, whether it was. -/
  result : Option (List (String × Bool)) := none
  errors : List RequestError := []
  deriving Inhabited

/-- The version that a value writes, rounded toward zero, and whether it is exact. What is not a
number is neither too small nor too large. -/
def versionOf : Json → Except Failure (Int × Bool)
  | .bool b => .ok (if b then 1 else 0, true)
  | .int n => .ok (n, true)
  | .float (.finite isNegative significand exponent) =>
    .ok (Double.wholePart isNegative significand exponent)
  | .float .notANumber => .ok (protocolVersion, true)
  | _ => .error .illTyped

namespace Session

/-- Prints on the output stream. -/
def print (text : String) : Act Unit := task (Configuring.print text)

/-- Prints a line on the error stream. -/
def tell (line : String) : Act Unit :=
  modify fun s => { s with journal := s.journal.printError (line ++ "\n") }

/-- Sends an object; an empty line follows it. -/
def send (fields : List (String × Json)) : Act Unit := print ((Json.obj fields).compact ++ "\n\n")

/-- The fields about the menu and its state, with the warnings after the first `count`. -/
def stateFields (count : Nat) : Act (List (String × Json)) := do
  let items ← menu
  let s ← get
  return [("menus", .arr (items.map MenuItem.toJson)), ("has_changed", .bool s.hasChanged),
    ("warnings", .ofTexts (s.journal.warnings.drop count))]

/-- Adds what setting one item brings about. -/
def setItemOf (response : Response) (id : String) (value : Json) : Act Response := do
  match Text.readInt .ten id.toList with
  | none => return { response with errors := response.errors ++ [.badItem id] }
  | some n =>
    let isSet ← change n value
    let errors := if isSet then [] else [.refused id value]
    return { response with
      errors := response.errors ++ errors
      result := some (response.result.getD [] ++ [(id, isSet)]) }

/-- Sets the items of an object. -/
def setItems (response : Response) : Json → Act Response
  | .obj fields =>
    fields.foldlM (fun response (id, value) => setItemOf response id value)
      { response with result := some [] }
  | _ => return { response with errors := response.errors ++ [.badSettings] }

/-- How the error stream speaks of the file. -/
def targetWords : ConfigTarget → String
  | .path name => if name.isEmpty then "default location" else name
  | .other v => if v.isFilled then v.asText else "default location"
  | .standard => "default location"

/-- Takes a file that a request names; null is for the one at hand. -/
def retarget (value : Json) : Act Unit :=
  match value with
  | .null => pure ()
  | v => modify ({ · with target := .ofJson v })

/-- Loads a file. -/
def load (response : Response) (value : Json) : Act Response := do
  retarget value
  tell s!"Loading config from {targetWords (← get).target}..."
  return { response with message := ← loadConfig }

/-- Saves to a file; a file that cannot be written is an error of the request. -/
def save (response : Response) (value : Json) : Act Response := do
  retarget value
  try
    return { response with message := ← saveConfig }
  catch failure =>
    match failure with
    | .file .. =>
      return { response with
        errors := response.errors ++ [.notSaved (failure.message?.getD "")] }
    | _ => throw failure

/-- Performs one part of a request, if it has it. -/
def perform (request : Json) (key : String) (part : Response → Json → Act Response)
    (response : Response) : Act Response :=
  match request.field? key with
  | some value => part response value
  | none => pure response

/-- Performs a request. -/
def handle (request : Json) : Act Response := do
  let some version := request.field? "version" | return { errors := [.noVersion] }
  let (whole, isExact) ← orFail (versionOf version)
  if whole ≠ protocolVersion || !isExact then return { errors := [.badVersion whole] }
  if let some value := request.field? "show_all" then
    modify ({ · with showsAll := value.isFilled })
  let response ← perform request "load" load {}
  let response ← perform request "set" setItems response
  perform request "save" save response

/-- The fields of a response. -/
def Response.fields (response : Response) : List (String × Json) :=
  (response.message.toList.map fun m => ("message", .str m)) ++
    response.result.toList.map fun r => ("result", .obj (r.map fun (id, b) => (id, .bool b)))

/-- Answers a request. -/
def respond (standard : Int) (request : Json) : Act Unit := do
  let count := (← get).journal.notices.size
  let response ← handle request
  let state ← stateFields count
  let errors := response.errors.map RequestError.message
  errors.forM fun e => tell s!"Error: {e}"
  send ([("version", (request.field? "version").getD (.int standard))] ++
    Response.fields response ++ state ++
    if errors.isEmpty then [] else [("error", .ofTexts errors)])

/-- Answers a line that holds no request. -/
def reject (standard : Int) (error : RequestError) : Act Unit :=
  send [("version", .int standard), ("error", .ofTexts [error.message])]

/-- Answers a line; `standard` is the version of answers to lines that have none. -/
def answer (standard : Int) (line : String) : Act Unit := do
  if (Text.trim line.toList).isEmpty then return
  match Json.parse line with
  | .error e => if e.missing = .half then throw .badJson else reject standard (.notJson e)
  | .ok request =>
    match request with
    | .obj _ => respond standard request
    | _ => reject standard .notObject

/-- Loads the file and sends the menu, before any request. -/
def greet (standard : Int) : Act Unit := do
  tell (← loadConfig)
  tell "Server running, waiting for requests on stdin..."
  send (("version", .int standard) :: (← stateFields 0))

/-- Greets, and answers lines one after the other. -/
def serve (standard : Int) (lines : List String) : Act Unit := do
  greet standard
  lines.forM (answer standard)

end Session
end Kconfig
