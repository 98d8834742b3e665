import Kconfig.Shell.Script
import Kconfig.Files.Store
/-!
The command language of `$(shell,...)`: what scripts do.

Which shell runs the commands is up to the host; here is a small one, which knows the commands that
Kconfig files are tried out with.

A script writes bytes to its two streams, may write files, and ends with a status. The commands are
`echo`, `printf`, `true`, `false`, `:` and `exit`; any other name is not found. Redirections hold
for one command; `exit` ends the script or the parentheses it stands in.
-/
namespace Kconfig.Shell

/-- Where a stream leads. -/
inductive Sink where
  | output | errors | nowhere
  | file (path : String)
  deriving DecidableEq, Repr

structure State where
  store : Files.Store
  out : List UInt8 := []
  err : List UInt8 := []
  status : Nat := 0
  ended : Bool := false

/-- The bytes of a text. -/
def bytes (s : List Char) : List UInt8 := (String.ofList s).toUTF8.toList

/-- Bytes sent down a stream. -/
def State.send (st : State) (sink : Sink) (data : List UInt8) : State :=
  match sink with
  | .output => { st with out := st.out ++ data }
  | .errors => { st with err := st.err ++ data }
  | .nowhere => st
  | .file path =>
    let old := match st.store.read path with
      | .ok (.text s) => s.toUTF8.toList
      | .ok (.raw bs) => bs
      | .error _ => []
    match st.store.write path (.ofBytes (old ++ data)) with
    | .ok store => { st with store }
    | .error _ => st

/-- The value of a variable; `?` is the last status. -/
def State.value (env : String → Option String) (st : State) (name : String) : String :=
  if name = "?" then String.ofList (Nat.toDigits 10 st.status) else (env name).getD ""

/-- The fields of a word: those that are complete, last first, and the open one, if any. -/
def addPiece (value : String → String) (fields : List (List Char) × Option (List Char)) :
    Piece → List (List Char) × Option (List Char)
  | .text s => (fields.1, some (fields.2.getD [] ++ s))
  | .value name true => (fields.1, some (fields.2.getD [] ++ (value name).toList))
  | .value name false =>
    (value name).toList.foldl (fun (done, field) c =>
      if c == ' ' || c == '\t' || c == '\n' then
        match field with
        | some f => (f :: done, none)
        | none => (done, none)
      else (done, some (field.getD [] ++ [c]))) fields

/-- The fields that words give. -/
def expandWords (value : String → String) (words : List Word) : List (List Char) :=
  words.flatMap fun w =>
    let (done, field) := w.foldl (addPiece value) ([], none)
    (match field with
      | some f => f :: done
      | none => done).reverse

/-- The byte of up to three octal digits, and the rest. -/
def octal : Nat → Nat → List Char → Nat × List Char
  | count + 1, n, c :: s =>
    if '0' ≤ c ∧ c ≤ '7' then octal count (n * 8 + (c.toNat - 48)) s else (n, c :: s)
  | _, n, s => (n, s)

/-- The bytes of a text with backslash escapes, and whether `\c` cut it off; octal numbers start
with a zero when `zero` says so. -/
def unescaped (zero : Bool) : Nat → List Char → List UInt8 × Bool
  | 0, _ => ([], false)
  | _, [] => ([], false)
  | fuel + 1, '\\' :: c :: s =>
    let more := fun (bs : List UInt8) (s : List Char) =>
      let r := unescaped zero fuel s
      (bs ++ r.1, r.2)
    match c with
    | 'a' => more [7] s
    | 'b' => more [8] s
    | 'c' => ([], true)
    | 'f' => more [12] s
    | 'n' => more [10] s
    | 'r' => more [13] s
    | 't' => more [9] s
    | 'v' => more [11] s
    | '\\' => more [92] s
    | '0' =>
      let (n, s) := octal 3 0 s
      more [UInt8.ofNat n] s
    | c =>
      if !zero && '1' ≤ c && c ≤ '7' then
        let (n, s) := octal 3 0 (c :: s)
        more [UInt8.ofNat n] s
      else more (bytes ['\\', c]) s
  | fuel + 1, c :: s =>
    let r := unescaped zero fuel s
    (bytes [c] ++ r.1, r.2)

/-- What `echo` writes. -/
def echo (args : List (List Char)) : List UInt8 :=
  let (args, newline) := match args with
    | ['-', 'n'] :: rest => (rest, false)
    | args => (args, true)
  let text := List.intercalate [' '] args
  let (bs, cut) := unescaped true (text.length + 1) text
  if newline && !cut then bs ++ [10] else bs

/-- A text filled up with blanks on one side. -/
def padded (left : Bool) (width : Nat) (bs : List UInt8) : List UInt8 :=
  let fill := List.replicate (width - bs.length) (32 : UInt8)
  if left then bs ++ fill else fill ++ bs

/-- One pass over a `printf` format: the bytes and the arguments that are left. -/
def format : Nat → List Char → List (List Char) → List UInt8 × List (List Char)
  | 0, _, args => ([], args)
  | _, [], args => ([], args)
  | fuel + 1, '%' :: '%' :: s, args =>
    let r := format fuel s args
    (37 :: r.1, r.2)
  | fuel + 1, '%' :: s, args =>
    let left := s.head? == some '-'
    let s := if left then s.drop 1 else s
    let width := (s.takeWhile Char.isDigit).foldl (fun n c => n * 10 + (c.toNat - 48)) 0
    let arg := args.headD []
    match s.dropWhile Char.isDigit with
    | [] => ([37], args)
    | c :: s =>
      let shown := match c with
        | 'c' => bytes (arg.take 1)
        | 'b' => (unescaped true (arg.length + 1) arg).1
        | 's' => bytes arg
        | _ => bytes (if arg.isEmpty then ['0'] else arg)
      let r := format fuel s (args.drop 1)
      (padded left width shown ++ r.1, r.2)
  | fuel + 1, '\\' :: c :: s, args =>
    if '0' ≤ c ∧ c ≤ '7' then
      let (n, s) := octal 3 0 (c :: s)
      let r := format fuel s args
      (UInt8.ofNat n :: r.1, r.2)
    else
      let r := format fuel s args
      ((unescaped false 3 ['\\', c]).1 ++ r.1, r.2)
  | fuel + 1, c :: s, args =>
    let r := format fuel s args
    (bytes [c] ++ r.1, r.2)

/-- What `printf` writes: the format again and again until the arguments are used up. -/
def printf (text : List Char) : Nat → List (List Char) → List UInt8
  | 0, _ => []
  | rounds + 1, args =>
    let r := format (text.length + 1) text args
    if r.2.isEmpty || r.2.length == args.length then r.1 else r.1 ++ printf text rounds r.2

/-- A simple command with its words expanded; the two sinks are those of its streams. -/
def command (st : State) (out err : Sink) : List (List Char) → State
  | [] => { st with status := 0 }
  | name :: args =>
    match String.ofList name with
    | "echo" => { st.send out (echo args) with status := 0 }
    | "printf" =>
      { st.send out (printf (args.headD []) (args.length + 1) (args.drop 1)) with status := 0 }
    | "true" => { st with status := 0 }
    | ":" => { st with status := 0 }
    | "false" => { st with status := 1 }
    | "exit" =>
      let status := match args with
        | [] => st.status
        | n :: _ => n.foldl (fun n c => n * 10 + (c.toNat - 48)) 0 % 256
      { st with status, ended := true }
    | other =>
      let message := s!"/bin/sh: 1: {other}: not found\n"
      { st.send err message.toUTF8.toList with status := 127 }

/-- The sinks after redirections, and the store with files that they empty. -/
def redirected (value : String → String) (st : State) (out err : Sink) :
    List Redirect → State × Sink × Sink
  | [] => (st, out, err)
  | r :: rs =>
    let target := String.ofList ((expandWords value [r.target]).headD [])
    let sink := match r.direction with
      | .duplicate => if target = "1" then out else if target = "2" then err else .nowhere
      | _ => if target = "/dev/null" then .nowhere else .file target
    let st := match r.direction, sink with
      | .write, .file path =>
        match st.store.write path (.text "") with
        | .ok store => { st with store }
        | .error _ => st
      | _, _ => st
    if r.stream = 1 then redirected value st sink err rs
    else if r.stream = 2 then redirected value st out sink rs
    else redirected value st out err rs

/-- Runs a script with its streams leading to two sinks. -/
def Script.exec (env : String → Option String) (out err : Sink) (st : State) : Script → State
  | .nothing => st
  | .run words redirects =>
    if st.ended then st
    else
      let (st, out, err) := redirected (st.value env) st out err redirects
      command st out err (expandWords (st.value env) words)
  | .subshell body redirects =>
    if st.ended then st
    else
      let (st, out, err) := redirected (st.value env) st out err redirects
      { body.exec env out err st with ended := false }
  | .both a b =>
    let st := a.exec env out err st
    if st.status = 0 then b.exec env out err st else st
  | .either a b =>
    let st := a.exec env out err st
    if st.status = 0 then st else b.exec env out err st
  | .inTurn a b => b.exec env out err (a.exec env out err st)

/-- What a command line leaves: its output, its errors, and the files. -/
structure Outcome where
  out : List UInt8
  err : List UInt8
  store : Files.Store

/-- Runs a command line of the small language. -/
def runLine (env : String → Option String) (store : Files.Store) (line : String) : Outcome :=
  match Script.read? line with
  | some script =>
    let st := script.exec env .output .errors { store }
    ⟨st.out, st.err, st.store⟩
  | none => ⟨[], ("/bin/sh: 1: Syntax error\n").toUTF8.toList, store⟩

end Kconfig.Shell

namespace Kconfig

/-- A shell: what a command line leaves, by the environment and the files. -/
structure Shell where
  run : (String → Option String) → Files.Store → String → Shell.Outcome

/-- The shell that knows the small language. -/
def Shell.small : Shell := ⟨runLine⟩

instance : Inhabited Shell := ⟨.small⟩

end Kconfig
