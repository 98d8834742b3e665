import Kconfig.Macro.Template
import Kconfig.Reading.Workspace
/-!
Expanding macros.

A macro stands for an argument of the macro around it, a variable, a built-in function, or an
environment variable, in this order; a name that is none of these stands for nothing. What a macro
stands for is not read again. A variable may not be expanded inside its own expansion, unless
arguments make it a function, and then only a hundred times; this bounds the depth of all
expansions, and `depthLimit` is never reached.
-/
namespace Kconfig.Macro

/-- How often a function may be expanded inside itself. -/
def maxNesting : Nat := 100

/-- The argument that a number in parentheses stands for; negative ones count from the end. -/
def argument? (args : List (List Char)) (name : List Char) : Option (List Char) :=
  match Text.readInt .ten name with
  | some (.ofNat n) => args[n]?
  | some (.negSucc n) => if n < args.length then args[args.length - 1 - n]? else none
  | none => none

inductive Builtin where
  | info | errorIf | filename | lineno | shell | warningIf
  deriving DecidableEq, Repr

/-- The built-in function of a name. -/
def Builtin.find? : String → Option Builtin
  | "info" => some .info
  | "error-if" => some .errorIf
  | "filename" => some .filename
  | "lineno" => some .lineno
  | "shell" => some .shell
  | "warning-if" => some .warningIf
  | _ => none

/-- How many arguments a function takes. -/
def Builtin.arity : Builtin → Nat
  | .info | .shell => 1
  | .errorIf | .warningIf => 2
  | .filename | .lineno => 0

/-- The output of a command as a macro's value: its lines joined by blanks. -/
def joinOutput (s : List Char) : List Char :=
  let lines := Text.splitLines s
  (Text.dropRightWhile (· == '\n') (List.intercalate ['\n'] lines)).map
    fun c => if c = '\n' then ' ' else c

/-- Decodes the output of a command. -/
def decodeOutput (bytes : List UInt8) : Reading (List Char) :=
  match Text.decode bytes with
  | .ok s => pure s
  | .error fault => do Reading.fatal (.undecodableMacro (← get).place.spot fault)

/-- Runs a command line. -/
def runShell (command : List Char) : Reading (List Char) := do
  let w ← get
  let outcome := w.host.shell.run w.host.lookup? w.host.files (String.ofList command)
  set { w with host := { w.host with files := outcome.store } }
  let out ← decodeOutput outcome.out
  let err ← decodeOutput outcome.err
  unless err.isEmpty do
    let lines := (Text.splitLines err).map String.ofList
    Reading.warnHere (.shellErrors (String.ofList command) ("\\n".intercalate lines))
  pure (joinOutput out)

/-- Calls a built-in function with as many arguments as it takes. -/
def Builtin.call (args : List (List Char)) (f : Builtin) : Reading (List Char) := do
  let spot := (← get).place.spot
  match f, args with
  | .info, [message] =>
    modify fun w =>
      { w with journal := w.journal.print s!"{spot.fullPlace}: {String.ofList message}\n" }
    pure []
  | .errorIf, [cond, message] =>
    if cond = ['y'] then Reading.fatal (.stated spot (String.ofList message)) else pure []
  | .warningIf, [cond, message] =>
    if cond = ['y'] then Reading.warnHere (.stated (String.ofList message))
    pure []
  | .filename, [] =>
    match spot.file with
    | some file => pure file.toList
    | none => throw .illTyped
  | .lineno, [] => pure (Text.decimal spot.line).toList
  | .shell, [command] => runShell command
  | _, _ => Reading.fatal (.stated spot "")

/-- The number of a variable. -/
def variableIndex? (w : Workspace) (name : String) : Option Nat :=
  w.macros.findIdx? fun v => v.name == name

/-- What a name that is no variable stands for. -/
def callFunction (name : String) (args : List (List Char)) : Reading (List Char) := do
  match Builtin.find? name with
  | some f =>
    if args.length = f.arity then f.call args
    else Reading.fatal (.argumentCount (← get).place.spot name f.arity args.length)
  | none => pure (((← Reading.useVariable? name).getD "").toList)

/-- Counts an expansion of a variable that begins or ends. -/
def countActive (index : Nat) (f : Nat → Nat) : Reading Unit :=
  modify fun w =>
    { w with macros := w.macros.modify index fun v => { v with active := f v.active } }

section
variable (call : List (List Char) → Reading (List Char)) (outer : List (List Char))

mutual

/-- The text of a piece: `call` gives the value of a macro, `outer` are the arguments in force. -/
def expandPiece : Piece → Reading (List Char)
  | .char c => pure [c]
  | .call args closed => do
    let args ← expandArgs args
    if closed then
      match argument? outer (args.headD []) with
      | some value => pure value
      | none => call args
    else Reading.problem .openMacro

def expandArgs : List (List Piece) → Reading (List (List Char))
  | [] => pure []
  | arg :: more => do
    let text ← expandPieces arg
    let texts ← expandArgs more
    pure (text :: texts)

def expandPieces : List Piece → Reading (List Char)
  | [] => pure []
  | p :: more => do
    let text ← expandPiece p
    let rest ← expandPieces more
    pure (text ++ rest)

end

end

/-- The value of a macro: its name, then its arguments. -/
def callAt : Nat → List (List Char) → Reading (List Char)
  | 0, _ => throw .endless
  | depth + 1, args => do
    let name := String.ofList (args.headD [])
    let w ← get
    match variableIndex? w name with
    | none => callFunction name (args.drop 1)
    | some index =>
      let v := w.macros[index]?.getD default
      if args.length = 1 then
        if v.active ≠ 0 then Reading.problem (.selfReference name)
      else if v.active > maxNesting then Reading.problem (.endlessFunction name)
      countActive index (· + 1)
      let value ← expandPieces (callAt depth) args (template v.value.toList)
      countActive index (· - 1)
      pure value

/-- More than the depth that expansions can reach with so many variables. -/
def depthLimit (count : Nat) : Nat := (maxNesting + 1) * count + 1

/-- The value of a macro. -/
def call (args : List (List Char)) : Reading (List Char) := do
  callAt (depthLimit (← get).macros.size) args

/-- The text of pieces that stand in no macro. -/
def expand (pieces : List Piece) : Reading (List Char) := expandPieces call [] pieces

/-- A text with its macros expanded. -/
def expandText (s : List Char) : Reading (List Char) := expand (template s)

/-- A character of a symbol name before macros are expanded. -/
def isNameChar (c : Char) : Bool :=
  c.isAlphanum || c == '_' || c == '$' || c == '/' || c == '.' || c == '-'

/-- The symbol name that a text starts with, expanded, and the text after it and its blanks. -/
def readName (s : List Char) : Reading (List Char × List Char) := do
  let (pieces, rest) := readPieces isNameChar s
  let name ← expand pieces
  if (Text.trim name).isEmpty then Reading.problem .blankMacro
  pure (name, Text.trimLeft rest)

/-- The quoted text whose opening quote is read, expanded, and the text after its end. -/
def readString (quote : Char) (s : List Char) : Reading (List Char × List Char) := do
  let (pieces, rest) := readQuoted quote s
  let text ← expand pieces
  match rest with
  | some rest => pure (text, rest)
  | none => Reading.problem .openString

/-- How an assignment treats the value it finds. -/
inductive Assignment where
  | recursive | immediate | append
  deriving DecidableEq, Repr

/-- The operator of an assignment and its right side, up to the end of the line. -/
def assignment? (s : List Char) : Option (Assignment × List Char) :=
  let value := fun (s : List Char) => (s.dropWhile Text.asciiBlank).takeWhile (· != '\n')
  match s.dropWhile Text.asciiBlank with
  | '=' :: s => some (.recursive, value s)
  | ':' :: '=' :: s => some (.immediate, value s)
  | '+' :: '=' :: s => some (.append, value s)
  | _ => none

/-- Gives the variable of a number its value. -/
def giveValue (index : Nat) (op : Assignment) (value : List Char) : Reading Unit := do
  let update := fun (f : Variable → Variable) =>
    modify fun (w : Workspace) => { w with macros := w.macros.modify index f }
  match op with
  | .recursive => update fun v => { v with isRecursive := true, value := String.ofList value }
  | .immediate =>
    update fun v => { v with isRecursive := false }
    let value ← expandText value
    update fun v => { v with value := String.ofList value }
  | .append =>
    let v := (← get).macros[index]?.getD default
    let value ← if v.isRecursive then pure value else expandText value
    update fun w => { w with value := v.value ++ " " ++ String.ofList value }

/-- Gives a variable its value; appending to a new variable makes it a recursive one. -/
def assign (name : String) (op : Assignment) (value : List Char) : Reading Unit := do
  let w ← get
  match variableIndex? w name with
  | some index => giveValue index op value
  | none =>
    set { w with macros := w.macros.push { name } }
    giveValue w.macros.size (if op = .append then .recursive else op) value

/-- A character of a variable's name. -/
def isVariableChar (c : Char) : Bool := c.isAlphanum || c == '_' || c == '-'

/-- Takes a line as an assignment, or as macros that expand to blanks. -/
def readAssignment (line : List Char) : Reading Unit := do
  let (pieces, rest) := readPieces isVariableChar (Text.trimLeft line)
  let name ← expand pieces
  unless Text.allBlank (name ++ rest) do
    match assignment? rest with
    | none => Reading.problem .syntaxError
    | some (op, value) => assign (String.ofList name) op value

end Kconfig.Macro
