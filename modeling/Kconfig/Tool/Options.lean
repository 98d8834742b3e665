import Kconfig.Text.Numeral
/-!
Arguments of a command.

An option is `--name` followed by its values, or `--name=value`; a beginning of the name will do
when no other option has it. Anything else is an operand, and everything after `--` is. An argument
that starts with `-` is no value, unless it is a negative number or holds a space.
-/
namespace Kconfig.Tool

/-- How many values follow an option. -/
inductive Takes where
  | nothing | value | atMostOne | two
  deriving DecidableEq, Repr

def Takes.least : Takes → Nat
  | .nothing | .atMostOne => 0
  | .value => 1
  | .two => 2

def Takes.most : Takes → Nat
  | .nothing => 0
  | .value | .atMostOne => 1
  | .two => 2

/-- An option that a command knows; its name is spelled with the dashes. -/
structure OptionForm where
  name : String
  takes : Takes
  deriving DecidableEq, Repr

/-- What is wrong with the arguments of a command. -/
inductive UsageError where
  | ambiguous (arg : String)
  | valueCount (option : String)
  | unrecognized (arg : String)
  | required (option : String)
  | notANumber (option value : String)
  | cannotOpen (option path : String)
  deriving DecidableEq, Repr

/-- A usage error in words. -/
def UsageError.message : UsageError → String
  | .ambiguous arg => s!"ambiguous option: {arg}"
  | .valueCount option => s!"argument {option}: wrong number of values"
  | .unrecognized arg => s!"unrecognized arguments: {arg}"
  | .required option => s!"the following arguments are required: {option}"
  | .notANumber option value => s!"argument {option}: invalid int value: '{value}'"
  | .cannotOpen option path => s!"argument {option}: can't open '{path}'"

/-- How an argument reads by itself. -/
inductive Word where
  | option (form : OptionForm) (inline : Option String)
  | stranger
  | value

/-- Whether a text is a negative number. -/
def isNegativeNumber (s : List Char) : Bool :=
  match s with
  | '-' :: s =>
    let fraction := s.dropWhile Char.isDigit
    match fraction with
    | [] => !s.isEmpty
    | '.' :: digits => !digits.isEmpty && digits.all Char.isDigit
    | _ => false
  | _ => false

/-- A text up to its first equals sign, and what stands after that. -/
def splitAtEquals (s : String) : String × Option String :=
  let cs := s.toList
  let head := String.ofList (cs.takeWhile (· != '='))
  match cs.dropWhile (· != '=') with
  | [] => (head, none)
  | _ :: rest => (head, some (String.ofList rest))

/-- Reads an argument that starts with a dash and is no option's whole name. -/
def readDashed (forms : List OptionForm) (arg : String) : Except UsageError Word :=
  let (name, inline) := splitAtEquals arg
  match inline, forms.find? (·.name == name) with
  | some _, some form => .ok (.option form inline)
  | _, _ =>
    let named := if "--".isPrefixOf arg then forms.filter (name.isPrefixOf ·.name) else []
    match named with
    | [form] => .ok (.option form inline)
    | _ :: _ => .error (.ambiguous arg)
    | [] =>
      if isNegativeNumber arg.toList || arg.toList.contains ' ' then .ok .value else .ok .stranger

/-- Reads an argument by itself. -/
def readWord (forms : List OptionForm) (arg : String) : Except UsageError Word :=
  match forms.find? (·.name == arg) with
  | some form => .ok (.option form none)
  | none => if "-".isPrefixOf arg && arg ≠ "-" then readDashed forms arg else .ok .value

/-- The arguments read so far: the options with their values, the operands, and the option whose
values may go on. -/
structure Arguments where
  options : List (String × List String) := []
  operands : List String := []
  current : Option (OptionForm × List String) := none
  deriving Inhabited

namespace Arguments

/-- The arguments with the current option done. -/
def close (a : Arguments) : Except UsageError Arguments :=
  match a.current with
  | none => .ok a
  | some (form, values) =>
    if values.length < form.takes.least then .error (.valueCount form.name)
    else .ok { a with options := a.options ++ [(form.name, values)], current := none }

/-- The arguments with one that is no option. -/
def addValue (a : Arguments) (value : String) : Except UsageError Arguments := do
  match a.current with
  | some (form, values) =>
    if values.length < form.takes.most then
      return { a with current := some (form, values ++ [value]) }
    let a ← a.close
    return { a with operands := a.operands ++ [value] }
  | none => return { a with operands := a.operands ++ [value] }

/-- The arguments with an option. -/
def addOption (a : Arguments) (form : OptionForm) (inline : Option String) :
    Except UsageError Arguments := do
  let a ← a.close
  match inline with
  | none => return { a with current := some (form, []) }
  | some value =>
    if form.takes.most = 1 then return { a with options := a.options ++ [(form.name, [value])] }
    throw (.valueCount form.name)

/-- Reads arguments after those already read. -/
def readFrom (forms : List OptionForm) (a : Arguments) : List String → Except UsageError Arguments
  | [] => a.close
  | "--" :: rest => do
    let a ← a.close
    return { a with operands := a.operands ++ rest }
  | arg :: rest => do
    match ← readWord forms arg with
    | .option form inline => readFrom forms (← a.addOption form inline) rest
    | .value => readFrom forms (← a.addValue arg) rest
    | .stranger => throw (.unrecognized arg)

/-- Reads the arguments of a command that takes up to `most` operands. -/
def read (forms : List OptionForm) (most : Nat) (args : List String) :
    Except UsageError Arguments := do
  let a ← readFrom forms {} args
  match a.operands.drop most with
  | [] => return a
  | arg :: _ => throw (.unrecognized arg)

/-- The values of every use of an option. -/
def all (a : Arguments) (name : String) : List (List String) :=
  (a.options.filter (·.1 == name)).map (·.2)

/-- Whether an option is used. -/
def has (a : Arguments) (name : String) : Bool := a.options.any (·.1 == name)

/-- The first value of an option's last use. -/
def value? (a : Arguments) (name : String) : Option String :=
  (a.all name).getLast?.bind List.head?

/-- The first values of an option's uses. -/
def values (a : Arguments) (name : String) : List String := (a.all name).filterMap List.head?

/-- The value of an option that must be used. -/
def require (a : Arguments) (name : String) : Except UsageError String :=
  match a.value? name with
  | some value => .ok value
  | none => .error (.required name)

end Arguments

/-- A beginning of a name is enough, and what follows the values is an operand. -/
example : (Arguments.read [⟨"--out", .two⟩, ⟨"--quiet", .nothing⟩] 1
    ["--o", "a", "b", "x"]).toOption.map (fun a => (a.all "--out", a.operands)) =
    some ([["a", "b"]], ["x"]) := by decide +kernel

end Kconfig.Tool
